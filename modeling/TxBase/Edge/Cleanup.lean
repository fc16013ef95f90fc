import TxBase.Edge.Reachability

/-! Cleaning up.  A cleanup that no other call shares the store with spares what the manifest leads
to; a commit that it does not see may lose its root. -/
namespace TxBase.Edge
open Lib Procedure ObjectTable Interleaving List
open ObjectStore (get compareAndSwap delete list)

section Calls
variable [Formats] {store : Store} {root key : Key} {manifest : Manifest}
  {retained more : Retained} {α : Type} {limits : Formats.Limits}

def Retains (retained : Retained) (store : Store) (root : Key) : Prop :=
  Reaches store root ∧ root ∈ retained.roots ∧ ∀ manifest, root.isRoot = true →
    store.get? root = some (.pageManifest manifest) → ∀ key ∈ pageKeys manifest, key ∈ retained.pages

/-- What the manifest leads to is kept. -/
def Spared (retained : Retained) (store : Store) : Prop :=
  ∀ object manifest, store.get? .manifest = some object → Manifest.fromBytes object = .ok manifest →
    ∀ generation ∈ manifestHistory manifest, ∃ root, IsRootOf manifest generation root ∧
      Retains retained store root

def Extends (retained more : Retained) : Prop :=
  (∀ key ∈ retained.roots, key ∈ more.roots) ∧ ∀ key ∈ retained.pages, key ∈ more.pages

omit [Formats] in
theorem Retains.extend (h : Retains retained store root)
    (hmore : Extends retained more) : Retains more store root :=
  ⟨h.1, hmore.1 root h.2.1, fun manifest hroot hstored key hkey =>
    hmore.2 key (h.2.2 manifest hroot hstored key hkey)⟩

theorem Spared.sound (h : Spared retained store) : Sound store := by
  intro object manifest hobject hread gen hmem
  obtain ⟨root, hroot, hretains⟩ := h object manifest hobject hread gen hmem
  exact ⟨root, hroot, hretains.1⟩

theorem Spared.extend (h : Spared retained store) (hmore : Extends retained more) :
    Spared more store := by
  intro object manifest hobject hread gen hmem
  obtain ⟨root, hroot, hretains⟩ := h object manifest hobject hread gen hmem
  exact ⟨root, hroot, hretains.extend hmore⟩

theorem Spared.erase (h : Spared retained store) (hkey : key ≠ .manifest)
    (hroots : Area.snapshots.holds key = true → key ∉ retained.roots)
    (hpages : Area.pages.holds key = true → key ∉ retained.pages) :
    Spared retained (store.erase key) := by
  have hother : ∀ other, other ≠ key → OrderedMap.get? other (store.erase key) =
      store.get? other := by
    intro other hne
    rw [OrderedMap.get?_erase, if_neg hne]
  intro object manifest hobject hread gen hmem
  rw [hother _ (Ne.symm hkey)] at hobject
  obtain ⟨root, hisRoot, ⟨hsnapshot, found, hfound, hpresent⟩, hroot, hkept⟩ :=
    h object manifest hobject hread gen hmem
  have hne : root ≠ key := by
    rintro rfl
    exact hroots hsnapshot hroot
  refine ⟨root, hisRoot, ⟨hsnapshot, found, (hother root hne).trans hfound, ?_⟩, hroot, ?_⟩
  · rintro plan hplan rfl page hpage
    rw [hother page]
    · exact hpresent plan hplan rfl page hpage
    · rintro rfl
      refine hpages ?_ (hkept plan hplan hfound page hpage)
      obtain ⟨entry, -, rfl⟩ := mem_map.mp hpage
      rfl
  · rw [hother root hne]
    exact hkept

/-- What a call does that no other one shares the store with. -/
abbrev Alone (program : Storing α) (store : Store) (ends : α → Store → Prop) : Prop :=
  Ensures exec (fun _ => False) Sound program store ends fun _ _ => True

theorem Shares.alone {program : Storing α} {ends : α → Store → Prop} (hsound : Sound store)
    (h : Shares program store ends) :
    Alone program store ends :=
  Guarded.ensures (fun h => h.sound) hsound h

theorem alone_get (hsound : Sound store) :
    Alone (get key) store fun found last => found = store.get? key ∧ last = store :=
  .pass rfl hsound hsound ⟨rfl, rfl⟩ fun _ _ _ h => h.elim

theorem alone_ofExcept (hsound : Sound store) (result : Checked α) :
    Alone (ofExcept result) store fun value last => result = .ok value ∧ last = store := by
  cases result with
  | ok value => exact ⟨hsound, rfl, rfl⟩
  | error error => exact ⟨hsound, trivial⟩

theorem alone_bind {β : Type} {program : Storing α} {next : α → Storing β} {reads : α → Prop}
    {ends : β → Store → Prop}
    (h : Alone program store fun value last => reads value ∧ last = store)
    (hnext : ∀ value, reads value → Alone (next value) store ends) :
    Alone (program >>= next) store ends := by
  refine .bind (h.imp ?_)
  rintro value _ - ⟨hvalue, rfl⟩
  exact hnext value hvalue

section
variable (hsound : Sound store)
include hsound

theorem alone_loadManifest (gen maxFileSize : Nat) :
    Alone (loadManifest gen maxFileSize) store fun found last => (∀ plan, found = some plan →
      store.get? (.root gen) = some (.pageManifest plan)) ∧ last = store := by
  refine alone_bind (alone_get hsound) fun found hfound => ?_
  cases found with
  | none => exact ⟨hsound, nofun, rfl⟩
  | some object =>
    refine alone_bind (alone_ofExcept hsound _) fun plan hread => ⟨hsound, ?_, rfl⟩
    rintro _ ⟨⟩
    rw [← hfound, PageManifest.fromBytes_eq_ok hread]

theorem alone_retainRootPages (hreaches : Reaches store root) :
    Alone (retainRootPages limits root retained) store fun more last =>
      (Extends retained more ∧ Retains more store root) ∧ last = store := by
  unfold retainRootPages
  cases root with
  | root gen =>
    refine alone_bind (alone_loadManifest hsound gen _) fun found hplan => ?_
    cases found with
    | none => exact ⟨hsound, trivial⟩
    | some plan =>
      refine (alone_ofExcept hsound _).mono (fun more last _ hmore => ⟨?_, hmore.2⟩) fun _ _ _ => id
      obtain ⟨-, -, hmore⟩ := bind_eq_ok.mp hmore.1
      cases hmore
      refine ⟨⟨fun _ => mem_cons_of_mem _, fun _ => mem_append_right _⟩, hreaches,
        mem_cons_self, ?_⟩
      rintro found - hstored page hpage
      cases (hplan plan rfl).symm.trans hstored
      exact mem_append_left _ hpage
  | legacy _ | manifest | wal _ | page _ _ =>
    exact ⟨hsound, ⟨⟨fun _ => mem_cons_of_mem _, fun _ => id⟩, hreaches, mem_cons_self,
      fun _ => nofun⟩, rfl⟩

theorem alone_snapshotRoot {gen : Nat} (hroot : root = .legacy gen ∨ root = .root gen)
    (hreaches : Reaches store root) :
    Alone (snapshotRootForGeneration gen) store fun found last => found = some root ∧
      last = store := by
  obtain ⟨-, object, hobject, -⟩ := hreaches
  have hmem : root ∈ store.keys.filter (Area.generation gen).holds := by
    refine mem_filter.mpr ⟨mem_map_of_mem (OrderedMap.mem_of_get? hobject), ?_⟩
    rcases hroot with rfl | rfl <;> simp [Area.holds]
  have hlist : Alone (list (.generation gen)) store fun keys last => root ∈ keys ∧ last = store :=
    .pass rfl hsound hsound ⟨hmem, rfl⟩ fun _ _ _ h => h.elim
  refine alone_bind hlist fun keys hkeys => ?_
  rcases hroot with rfl | rfl
  all_goals
    rw [if_pos hkeys]
    split
    · exact ⟨hsound, trivial⟩
    · exact ⟨hsound, rfl, rfl⟩

theorem alone_retainHistory {generations : List Nat}
    (h : ∀ gen ∈ generations, ∃ root, IsRootOf manifest gen root ∧ Reaches store root) :
    Alone (retainHistory limits manifest generations retained) store fun more last =>
      (Extends retained more ∧
      ∀ gen ∈ generations, ∃ root, IsRootOf manifest gen root ∧ Retains more store root) ∧
        last = store := by
  induction generations generalizing retained with
  | nil => exact ⟨hsound, ⟨⟨fun _ => id, fun _ => id⟩, nofun⟩, rfl⟩
  | cons gen rest ih =>
    obtain ⟨root, hroot, hreaches⟩ := h gen mem_cons_self
    have hfound : Alone (rootInHistory manifest gen) store fun found last => found = some root ∧
        last = store := by
      unfold IsRootOf at hroot
      unfold rootInHistory
      split
      · rename_i heq
        rw [if_pos heq] at hroot
        exact ⟨hsound, congrArg some hroot.symm, rfl⟩
      · rename_i hne
        rw [if_neg hne] at hroot
        exact alone_snapshotRoot hsound hroot hreaches
    refine alone_bind hfound fun found hfound => ?_
    subst hfound
    refine alone_bind (alone_retainRootPages hsound hreaches) fun middle ⟨hmiddle, hretains⟩ => ?_
    refine (ih (forall_mem_cons.mp h).2).imp ?_
    rintro more last - ⟨⟨hmore, hrest⟩, hlast⟩
    refine ⟨⟨⟨fun key hkey => hmore.1 key (hmiddle.1 key hkey),
      fun key hkey => hmore.2 key (hmiddle.2 key hkey)⟩, ?_⟩, hlast⟩
    exact forall_mem_cons.mpr ⟨⟨root, hroot, hretains.extend hmore⟩, hrest⟩

end

theorem alone_delete (h : Spared retained store) (hkey : key ≠ .manifest)
    (hroots : Area.snapshots.holds key = true → key ∉ retained.roots)
    (hpages : Area.pages.holds key = true → key ∉ retained.pages) :
    Alone (delete key) store fun _ last => Spared retained last :=
  .pass rfl h.sound (h.erase hkey hroots hpages).sound (h.erase hkey hroots hpages)
    fun _ _ _ h => h.elim

theorem alone_retainPending {current : Option Nat} {keys removed : List Key}
    (h : Spared retained store)
    (hkeys : ∀ key ∈ keys, Area.wal.holds key = true) :
    Alone (retainPending current keys retained removed) store fun found last =>
      Spared found.1 last := by
  induction keys generalizing store retained removed with
  | nil => exact ⟨h.sound, h⟩
  | cons key rest ih =>
    rw [forall_mem_cons] at hkeys
    have hread : Alone (readPending key) store fun _ last => True ∧ last = store := by
      refine alone_bind (alone_get h.sound) fun found _ => ?_
      cases found with
      | none => exact ⟨h.sound, trivial, rfl⟩
      | some object =>
        exact alone_bind (alone_ofExcept h.sound _) fun _ _ =>
          alone_bind (alone_ofExcept h.sound _) fun _ _ =>
          ⟨h.sound, trivial, rfl⟩
    refine alone_bind hread fun found _ => ?_
    cases found with
    | none => exact ih h hkeys.2
    | some pending =>
      dsimp only
      split
      · have hroots : Extends retained { retained with roots := pending.root :: retained.roots } :=
          ⟨fun _ => mem_cons_of_mem _, fun _ => id⟩
        cases pending.pageManifest with
        | none => exact ih (h.extend hroots) hkeys.2
        | some plan =>
          refine alone_bind (alone_ofExcept h.sound _) fun more hmore => ih (h.extend ?_) hkeys.2
          obtain ⟨-, -, hmore⟩ := bind_eq_ok.mp hmore
          cases hmore
          exact ⟨hroots.1, fun _ => mem_append_right _⟩
      · have hwal : key ≠ .manifest ∧ Area.snapshots.holds key = false ∧
            Area.pages.holds key = false := by
          cases key <;> simp_all [Area.holds]
        refine .bind ((alone_delete h hwal.1 ?_ ?_).mono
          (fun _ _ _ hlast => ih hlast hkeys.2) fun _ _ _ => id)
        · simp [hwal.2.1]
        · simp [hwal.2.2]

theorem alone_sweep {kept : List Key} {area : Area} (h : Spared retained store)
    (harea : ∀ key, area.holds key = true → key ∉ kept → key ≠ .manifest ∧
      (Area.snapshots.holds key = true → key ∉ retained.roots) ∧
        (Area.pages.holds key = true → key ∉ retained.pages)) :
    Alone (sweep kept area) store fun _ last => Spared retained last := by
  have hlist : Alone (list area) store fun keys last => (∀ key ∈ keys, area.holds key = true) ∧
      last = store :=
    .pass rfl h.sound h.sound ⟨fun _ hkey => (mem_filter.mp hkey).2, rfl⟩ fun _ _ _ h => h.elim
  refine alone_bind hlist fun keys hkeys => .bind ?_
  have hloop : Alone (forEach (keys.filter (· ∉ kept)) delete) store fun _ last =>
      (∀ key ∈ ([] : List Key), area.holds key = true ∧ key ∉ kept) ∧ Spared retained last := by
    refine .forEach (fun rest last => (∀ key ∈ rest, area.holds key = true ∧ key ∉ kept) ∧
      Spared retained last)
      (fun key rest last _ h => ?_) h.sound ⟨?_, h⟩
    · rw [forall_mem_cons] at h
      obtain ⟨hkey, hroots, hpages⟩ := harea key h.1.1.1 h.1.1.2
      exact (alone_delete h.2 hkey hroots hpages).mono
        (fun _ _ _ hnext => ⟨h.1.2, hnext⟩) fun _ _ _ => id
    · exact fun key hkey => ⟨hkeys key (mem_filter.mp hkey).1, by simpa using (mem_filter.mp hkey).2⟩
  exact hloop.mono (fun _ _ hsound hlast => ⟨hsound, hlast.2⟩) fun _ _ _ => id

theorem alone_cleanupOrphans (hsound : Sound store) :
    Alone (cleanupOrphans limits) store fun _ _ => True := by
  have hcurrent : Alone currentManifest store fun found last =>
    (store.get? .manifest = found.1 ∧ Reads found.1 found.2) ∧
      last = store := by
    refine alone_bind (alone_get hsound) fun found hfound => ?_
    cases found with
    | none => exact ⟨hsound, ⟨hfound.symm, rfl⟩, rfl⟩
    | some object =>
      exact alone_bind (alone_ofExcept hsound _) fun manifest hread =>
        ⟨hsound, ⟨hfound.symm, object, rfl, hread⟩, rfl⟩
  refine alone_bind hcurrent fun found hfound => ?_
  obtain ⟨expected, current⟩ := found
  obtain ⟨hexpected, hread⟩ := hfound
  have hvalid : Alone (validateCurrent current) store fun _ last => True ∧ last = store := by
    cases current with
    | none => exact ⟨hsound, trivial, rfl⟩
    | some manifest =>
      exact (alone_ofExcept hsound _).mono (fun _ _ _ h => ⟨trivial, h.2⟩) fun _ _ _ => id
  refine alone_bind hvalid fun _ _ => ?_
  have hretained : Alone (retainCurrent limits current) store fun retained last =>
      Spared retained store ∧ last = store := by
    cases current with
    | none =>
      refine ⟨hsound, fun object manifest hobject => ?_, rfl⟩
      rw [hexpected, show expected = none from hread] at hobject
      cases hobject
    | some manifest =>
      obtain ⟨object, rfl, hread⟩ := hread
      refine (alone_retainHistory hsound (hsound object manifest hexpected hread)).imp ?_
      rintro retained last - ⟨⟨-, hretains⟩, hlast⟩
      refine ⟨fun other found hother hfound => ?_, hlast⟩
      cases hexpected.symm.trans hother
      cases hread.symm.trans hfound
      exact hretains
  refine alone_bind hretained fun retained hspared => ?_
  have hlist : Alone (list .wal) store fun keys last => (∀ key ∈ keys, Area.wal.holds key = true) ∧
      last = store :=
    .pass rfl hsound hsound ⟨fun _ hkey => (mem_filter.mp hkey).2, rfl⟩ fun _ _ _ h => h.elim
  refine alone_bind hlist fun keys hkeys => ?_
  refine (alone_retainPending hspared hkeys).then ?_
  rintro ⟨retained, removed⟩ first - hfirst
  refine (alone_sweep hfirst fun key hkey hkept => ?_).then ?_
  · refine ⟨?_, fun _ => hkept, fun hpages => ?_⟩ <;> cases key <;> simp_all [Area.holds]
  rintro snapshots second - hsecond
  refine (alone_sweep hsecond fun key hkey hkept => ?_).then ?_
  · refine ⟨?_, fun hroots => ?_, fun _ => hkept⟩ <;> cases key <;> simp_all [Area.holds]
  exact fun _ _ hlast _ => ⟨hlast, trivial⟩

theorem alone_retainGenerations (hsound : Sound store) (keepLast : Nat) :
    Alone (retainGenerations limits keepLast) store fun _ _ => True := by
  refine alone_bind (alone_ofExcept hsound _) fun _ hpositive => ?_
  refine (shares_recover.alone hsound).then ?_
  rintro - middle hmiddle -
  refine (shares_currentManifest.alone hmiddle).then ?_
  rintro ⟨expected, current⟩ first hfirst hread
  cases current with
  | none => exact ⟨hfirst, trivial⟩
  | some manifest =>
    obtain ⟨object, rfl, hread⟩ := hread
    refine alone_bind (alone_ofExcept hfirst _) fun _ _ =>
      alone_bind (alone_ofExcept hfirst _) fun next hnext => ?_
    rw [Manifest.toBytes_eq_ok hnext]
    set compacted := { manifest with history :=
      ((manifestHistory manifest).reverse.take keepLast).reverse } with hcompacted
    have hsub : ∀ gen ∈ manifestHistory compacted, gen ∈ manifestHistory manifest := by
      have hmem : ∀ gen ∈ compacted.history, gen ∈ manifestHistory manifest := fun gen h =>
        mem_reverse.mp (mem_of_mem_take (mem_reverse.mp h))
      intro gen h
      rw [manifestHistory] at h
      split at h
      · rename_i hnil
        have hhistory : manifestHistory manifest ≠ [] := by
          unfold manifestHistory
          split <;> simp_all
        exact absurd hnil (by simp [hcompacted, refuse_eq_ok.mp hpositive, hhistory])
      · exact hmem gen h
    have hswap : Shares (compareAndSwap .manifest (some object)
        (.manifest compacted)) first fun _ _ => True := by
      refine Guarded.pass fun store _ => ⟨?_, fun _ _ => trivial⟩
      simp only [exec]
      split
      · rename_i hstored
        exact grows_swap fun hsound gen hmem =>
          hsound object manifest hstored hread gen (hsub _ hmem)
      · exact refl_of Grows store
    exact .bind ((hswap.alone hfirst).mono
      (fun _ _ hlast _ => alone_cleanupOrphans hlast) fun _ _ _ => id)

inductive Method where
  | commit (table : Formats.Table)
  | recover
  | read
  | readAt (generation : Nat)
  | retainGenerations (keepLast : Nat)
  | cleanupOrphans

/-- A method of a table with limits of its own. -/
structure Call where
  limits : Formats.Limits
  method : Method

namespace Call

def program : Call → Storing Unit
  | ⟨limits, .commit table⟩ => do let _ ← ObjectTable.commit limits table
  | ⟨limits, .recover⟩ => do let _ ← ObjectTable.recover limits
  | ⟨limits, .read⟩ => do let _ ← ObjectTable.read limits
  | ⟨limits, .readAt generation⟩ => do let _ ← ObjectTable.readAt limits generation
  | ⟨limits, .retainGenerations keepLast⟩ => do let _ ← ObjectTable.retainGenerations limits keepLast
  | ⟨limits, .cleanupOrphans⟩ => do let _ ← ObjectTable.cleanupOrphans limits

/-- The calls that delete roots and pages. -/
def sweeps : Call → Bool
  | ⟨_, .retainGenerations _⟩ | ⟨_, .cleanupOrphans⟩ => true
  | _ => false

end Call

variable {ι : Type} [DecidableEq ι] [Fintype ι]

abbrev Clients (ι : Type) := System StoreOp StoreOp.Reply Store ObjectStoreError Unit ι Call

theorem Call.guarded (call : Call) (hshared : call.sweeps = false) (store : Store) :
    Guarded exec Grows call.program store fun _ _ => True := by
  obtain ⟨_, method⟩ := call
  cases method with
  | commit table => exact (shares_commit table).bind fun _ _ _ _ => trivial
  | recover => exact shares_recover.bind fun _ _ _ _ => trivial
  | read => exact shares_read.bind fun _ _ _ _ => trivial
  | readAt gen => exact (shares_readAt gen).bind fun _ _ _ _ => trivial
  | retainGenerations _ | cleanupOrphans => cases hshared

theorem cleanup_alone_keeps_history {start : Store}
    (hstart : Sound start) {actions : List (Action ι Call)} {last : Clients ι}
    (hmeets : (⟨start, fun _ => none⟩ : Clients ι).meets exec Call.program Call.sweeps actions =
      true)
    (hrun : (⟨start, fun _ => none⟩ : Clients ι).run exec Call.program actions =
      some last) : Sound last.state := by
  have horderly : Orderly exec Call.sweeps Grows Sound (⟨start, fun _ => none⟩ : Clients ι) :=
    ⟨hstart, nofun, nofun⟩
  refine (horderly.run (fun _ _ h => h.sound) ?_ ?_ hmeets hrun).keeps
  · exact fun call store hshared => call.guarded hshared store
  · rintro ⟨_, method⟩ store hexclusive hsound
    cases method with
    | retainGenerations keepLast =>
      exact .bind ((alone_retainGenerations hsound keepLast).mono
        (fun _ _ h _ => ⟨h, trivial⟩) fun _ _ _ => id)
    | cleanupOrphans =>
      exact .bind ((alone_cleanupOrphans hsound).mono (fun _ _ h _ => ⟨h, trivial⟩) fun _ _ _ => id)
    | commit _ | recover | read | readAt _ => cases hexclusive

/-- The calls that delete no roots and pages. -/
abbrev SharedCall := { call : Call // call.sweeps = false }

abbrev SharedClients (ι : Type) :=
  System StoreOp StoreOp.Reply Store ObjectStoreError Unit ι SharedCall

theorem SharedClients.meets_shared (system : SharedClients ι)
    (actions : List (Action ι SharedCall)) :
    system.meets exec (·.1.program) (fun _ => false) actions = true := by
  induction actions generalizing system with
  | nil => rfl
  | cons action rest ih => cases action <;> simp [System.meets, System.alone, ih]

/-- A root or a page that is in the store at any time stays there as it is while clients commit,
recover and read, each of them stopped anywhere. -/
theorem stored_objects_are_immutable {start : Store} {before after : List (Action ι SharedCall)}
    {middle last : SharedClients ι}
    (hbefore : (⟨start, fun _ => none⟩ : SharedClients ι).run exec
      (·.1.program) before = some middle)
    (hafter : middle.run exec (·.1.program) after = some last) : Keeps middle.state last.state := by
  have hstart : Orderly exec (fun _ => false) Grows (fun _ => True)
      (⟨start, fun _ => none⟩ : SharedClients ι) :=
    ⟨trivial, fun _ _ h => (by cases h), fun _ _ _ _ h => by cases h⟩
  have hmiddle := hstart.run (fun _ _ _ => id) (fun call store _ => call.1.guarded call.2 store)
    (fun _ _ h => by cases h)
    (SharedClients.meets_shared _ _) hbefore
  -- The clients go on from where the first run left them.
  have hkeeps : Orderly exec (fun _ => false) Grows (Keeps middle.state) middle :=
    ⟨(refl_of Grows middle.state).keeps, hmiddle.behaves, hmiddle.only⟩
  refine (hkeeps.run ?_ (fun call store _ => call.1.guarded call.2 store) (fun _ _ h => by cases h)
    (SharedClients.meets_shared _ _) hafter).keeps
  exact fun _ _ hgrows hstate key object hdata hobject =>
    hgrows.keeps key object hdata (hstate key object hdata hobject)

end Calls

section Plain

@[reducible] def Formats.plain : Formats where
  Table := Nat
  Limits := Nat
  maxFileSize limits := limits
  generation table := table
  encode _ table := .ok [UInt8.ofNat table]
  decode _ bytes := .ok (bytes.headD 0).toNat
  crc32c bytes := bytes.length
  textLength _ := 0
  jsonError _ := ""

attribute [local instance] Formats.plain

def noCalls : Clients Bool := ⟨[], fun _ => none⟩

theorem sound_empty : Sound [] := nofun

def operates (client : Bool) (count : Nat) : List (Action Bool Call) :=
  .replicate count (.operate client)

/-- A commit and a read that share the store, and then a cleanup. -/
def commitThenCleanup : List (Action Bool Call) :=
  [.start true ⟨(9 : Nat), .commit (1 : Nat)⟩, .start false ⟨(1 : Nat), .read⟩] ++
    operates true 5 ++ operates false 2 ++
    operates true 3 ++
    [.leave true, .leave false, .start false ⟨(1 : Nat), .cleanupOrphans⟩] ++ operates false 5

theorem cleanup_alone_keeps_history_commit :
    ∃ last, noCalls.run exec Call.program commitThenCleanup = some last ∧
    last.state.keys = [.manifest, .page 1 0, .root 1] ∧ Sound last.state := by
  have hkeys : (noCalls.run exec Call.program commitThenCleanup).map (·.state.keys) =
      some [.manifest, .page 1 0, .root 1] := by decide +kernel
  obtain ⟨last, hrun, hkeys⟩ := Option.map_eq_some_iff.mp hkeys
  exact ⟨last, hrun, hkeys, cleanup_alone_keeps_history sound_empty (by decide +kernel) hrun⟩

/-- One of two commits has stored its page, and then both go on. -/
theorem stored_objects_are_immutable_second : ∃ middle last : SharedClients Bool,
    middle.state.keys = [.page 1 0, .wal 1] ∧ Key.root 2 ∈ last.state.keys ∧
      Keeps middle.state last.state := by
  let begun : SharedClients Bool := ⟨[], fun _ => none⟩
  have hkeys : ((begun.run exec (·.1.program) (.start true ⟨⟨(9 : Nat), .commit (1 : Nat)⟩, rfl⟩ ::
      .start false ⟨⟨(1 : Nat), .commit (2 : Nat)⟩, rfl⟩ :: .replicate 5
        (.operate true))).bind fun middle =>
        (middle.run exec (·.1.program) (.replicate 3 (.operate true) ++ .replicate 8
          (.operate false))).map fun last =>
          (middle.state.keys, decide (Key.root 2 ∈ last.state.keys))) =
            some ([.page 1 0, .wal 1], true) := by
    decide +kernel
  obtain ⟨middle, hbefore, hkeys⟩ := Option.bind_eq_some_iff.mp hkeys
  obtain ⟨last, hafter, hkeys⟩ := Option.map_eq_some_iff.mp hkeys
  obtain ⟨hmiddle, hlast⟩ := Prod.mk.inj hkeys
  exact ⟨middle, last, hmiddle, of_decide_eq_true hlast, stored_objects_are_immutable hbefore hafter⟩

/-- One client has read the manifest and the pending commits for a cleanup when the other one commits. -/
def commitDuringCleanup : List (Action Bool Call) :=
  .start true ⟨(9 : Nat), .commit (1 : Nat)⟩ :: operates true 8 ++
    [.leave true, .start false ⟨(1 : Nat), .cleanupOrphans⟩] ++ operates false 3 ++
    .start true ⟨(9 : Nat), .commit (2 : Nat)⟩ :: operates true 10 ++ operates false 4

/-- The cleanup deletes the root of the generation that has become the current one. -/
theorem cleanup_deletes_current_root : ∃ last,
    noCalls.run exec Call.program commitDuringCleanup = some last ∧
    ¬ Sound last.state := by
  have hstate : (noCalls.run exec Call.program commitDuringCleanup).map
      (fun last => (last.state.get? .manifest, last.state.get? (.root 2))) =
        some (some (.manifest ⟨2, 2, .root 2, 2, [1, 2]⟩), none) := by decide +kernel
  obtain ⟨last, hrun, hlast⟩ := Option.map_eq_some_iff.mp hstate
  obtain ⟨hmanifest, hroot⟩ := Prod.mk.inj hlast
  refine ⟨last, hrun, fun hsound => ?_⟩
  obtain ⟨root, hisRoot, -, object, hobject, -⟩ := hsound _ _ hmanifest rfl 2 (by decide)
  cases hisRoot
  cases hroot.symm.trans hobject

end Plain

end TxBase.Edge

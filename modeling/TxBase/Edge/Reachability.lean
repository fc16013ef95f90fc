import TxBase.Edge.Table
import TxBase.Lib.Interleaving

/-! The objects that the manifest leads to.  `Grows` is what every operation outside of a cleanup
does: roots and pages stay as they are, and what the manifest leads to stays present. -/
namespace TxBase.Edge
open Lib Procedure List
open ObjectStore (get putIfAbsent compareAndSwap delete list)

theorem pageKeys_isData {manifest : PageManifest}
    (h : key ∈ ObjectTable.pageKeys manifest) : key.isData = true := by
  obtain ⟨entry, -, rfl⟩ := mem_map.mp h
  rfl

theorem refuse_eq_ok {condition : Prop} [Decidable condition] {message : String} :
    refuse condition message = .ok value ↔ ¬ condition := by
  unfold refuse
  split <;> simp [*]

variable [Formats] {store later : Store} {root key : Key} {manifest : Manifest} {gen : Nat}
  {value : Unit} {limits : Formats.Limits}
  {object : Object} {expected : Option Object} {current : Option Manifest}

/-- A root is present, and so is every page that it refers to. -/
def Reaches (store : Store) (root : Key) : Prop :=
  Area.snapshots.holds root = true ∧ ∃ object, store.get? root = some object ∧
    ∀ manifest, root.isRoot = true → object = .pageManifest manifest →
      ∀ key ∈ ObjectTable.pageKeys manifest, (store.get? key).isSome

def IsRootOf (manifest : Manifest) (generation : Nat) (root : Key) : Prop :=
  if generation = manifest.generation then root = manifest.root
  else root = .legacy generation ∨ root = .root generation

/-- Every generation in the history of the current manifest has its root and its pages. -/
def Sound (store : Store) : Prop :=
  ∀ object manifest, store.get? .manifest = some object → Manifest.fromBytes object = .ok manifest →
    ∀ generation ∈ manifestHistory manifest, ∃ root, IsRootOf manifest generation root ∧
      Reaches store root

/-- Roots and pages that are present stay as they are. -/
def Keeps (store later : Store) : Prop :=
  ∀ key object, key.isData = true → store.get? key = some object → later.get? key = some object

structure Grows (store later : Store) : Prop where
  keeps : Keeps store later
  sound : Sound store → Sound later

instance : IsPreorder Store Grows where
  refl _ := ⟨fun _ _ _ => id, id⟩
  trans _ _ _ h h' := ⟨fun key object hdata hstored =>
    h'.keeps key object hdata (h.keeps key object hdata hstored),
    h'.sound ∘ h.sound⟩

omit [Formats] in
theorem Keeps.isSome (h : Keeps store later) (hkey : key.isData = true)
    (hsome : (store.get? key).isSome) :
    (later.get? key).isSome := by
  obtain ⟨object, hobject⟩ := Option.isSome_iff_exists.mp hsome
  rw [h key object hkey hobject]
  rfl

omit [Formats] in
theorem Keeps.reaches (h : Keeps store later) (hreaches : Reaches store root) :
    Reaches later root := by
  obtain ⟨hroot, object, hobject, hpages⟩ := hreaches
  have hdata : root.isData = true := by cases root <;> first | rfl | cases hroot
  exact ⟨hroot, object, h root object hdata hobject, fun manifest hisRoot heq key hkey =>
    h.isSome (pageKeys_isData hkey) (hpages manifest hisRoot heq key hkey)⟩

theorem Manifest.fromBytes_eq_ok (h : Manifest.fromBytes object = .ok manifest) :
    object = .manifest manifest := by
  cases object with
  | manifest found =>
    obtain ⟨-, -, h⟩ := bind_eq_ok.mp h
    cases h
    rfl
  | pending _ | pageManifest _ | bytes _ => cases h

theorem Keeps.grows (h : Keeps store later)
    (hmanifest : later.get? .manifest = store.get? .manifest) :
    Grows store later := by
  refine ⟨h, fun hsound object manifest hobject hread gen hmem => ?_⟩
  obtain ⟨root, hroot, hreaches⟩ := hsound object manifest (hmanifest ▸ hobject) hread gen hmem
  exact ⟨root, hroot, h.reaches hreaches⟩

/-- A key that holds nothing can be filled, and the object of a WAL key can be removed. -/
theorem grows_insert (hkey : key ≠ .manifest) (habsent : store.get? key = none) (object : Object) :
    Grows store (store.insert key object) := by
  refine Keeps.grows (fun other found _ hfound => ?_) (OrderedMap.get?_insert_ne _ _ (Ne.symm hkey))
  rw [OrderedMap.get?_insert_ne _ _ fun heq => by rw [heq, habsent] at hfound; cases hfound]
  exact hfound

theorem grows_erase : Grows store (store.erase (.wal gen)) := by
  have hother : ∀ other, other ≠ Key.wal gen →
      OrderedMap.get? other (store.erase (.wal gen)) = store.get? other := by
    intro other hne
    rw [OrderedMap.get?_erase, if_neg hne]
  refine Keeps.grows (fun other found hdata hfound => ?_) (hother _ nofun)
  rw [hother other fun heq => by rw [heq] at hdata; cases hdata]
  exact hfound

theorem grows_swap (hnext : Sound store → ∀ gen ∈ manifestHistory manifest,
      ∃ root, IsRootOf manifest gen root ∧ Reaches store root) :
    Grows store (store.insert .manifest (.manifest manifest)) := by
  have hkeeps : Keeps store (store.insert .manifest (.manifest manifest)) := by
    intro key object hdata hobject
    rw [OrderedMap.get?_insert_ne _ _ fun heq => by rw [heq] at hdata; cases hdata]
    exact hobject
  refine ⟨hkeeps, fun hsound object found hobject hread gen hmem => ?_⟩
  rw [OrderedMap.get?_insert_self] at hobject
  cases hobject
  cases Manifest.fromBytes_eq_ok hread
  obtain ⟨root, hroot, hreaches⟩ := hnext hsound gen hmem
  exact ⟨root, hroot, hkeeps.reaches hreaches⟩

section Shared
variable {α β : Type}

/-- What a call does while others run that do not clean up. -/
abbrev Shares (program : Storing α) (store : Store) (ends : α → Store → Prop) : Prop :=
  Guarded exec Grows program store ends

theorem shares_get (key : Key) : Shares (get key) store fun found last => last.get? key = found :=
  .pass fun middle _ => ⟨refl_of Grows middle, fun _ hreply => Except.ok.inj hreply⟩

theorem shares_list (area : Area) : Shares (list area) store fun _ _ => True :=
  .pass fun middle _ => ⟨refl_of Grows middle, fun _ _ => trivial⟩

theorem shares_delete : Shares (delete (.wal gen)) store fun _ _ => True :=
  .pass fun _ _ => ⟨grows_erase, fun _ _ => trivial⟩

theorem shares_ofExcept (result : Checked α) :
    Shares (ofExcept result) store fun value _ => result = .ok value :=
  .ofExcept fun _ => id

theorem shares_put (key : Key) (hkey : key ≠ .manifest) :
    Shares (putIfAbsentOrMatching key object) store fun _ last => key.isData = true →
      last.get? key = some object := by
  have hput : Shares (putIfAbsent key object) store fun reply last => reply = .ok () →
    last.get? key = some object := by
    refine .ask fun middle _ => ?_
    cases hstored : middle.get? key with
    | none =>
      simp only [exec, hstored]
      exact ⟨grows_insert hkey hstored object, fun _ => OrderedMap.get?_insert_self _ _ _⟩
    | some existing =>
      simp only [exec, hstored]
      split
      · rename_i heq
        exact ⟨refl_of Grows middle, fun _ => heq ▸ hstored⟩
      · exact ⟨refl_of Grows middle, by simp⟩
  refine hput.bind fun reply last _ hreply => ?_
  cases reply with
  | ok => exact fun _ => hreply rfl
  | error error =>
    cases error with
    | conflict message =>
      refine (shares_get key).bind fun found final _ hfound => ?_
      split
      · rename_i heq
        exact fun _ => hfound.trans heq
      · trivial
    | invalid message | missing message => trivial

theorem shares_readPage (page : PageReference) (index : Nat) :
    Shares (readPage page index) store fun _ last =>
      (last.get? (.page page.generation index)).isSome := by
  refine (shares_get _).bind fun found last _ hfound => ?_
  cases found with
  | none => trivial
  | some object => exact Guarded.ofExcept fun _ _ => by rw [hfound]; rfl

theorem shares_gatherPages (allowMissing : Bool) (pages : List (PageReference × Nat))
    (snapshot : Bytes) :
    Shares (gatherPages allowMissing pages snapshot) store fun found last => found.isSome →
      ∀ page ∈ pages, (last.get? (.page page.1.generation page.2)).isSome := by
  induction pages generalizing store snapshot with
  | nil =>
    intro _ page hmem
    cases hmem
  | cons page rest ih =>
    have hpage : Shares (readPage page.1 page.2).attempt store fun result last => ∀ bytes,
      result = .ok bytes →
        (last.get? (.page page.1.generation page.2)).isSome :=
      Guarded.attempt ((shares_readPage page.1 page.2).mono fun _ _ hpresent _ _ =>
        hpresent) fun _ _ _ => by simp
    refine hpage.bind fun result middle _ hresult => ?_
    cases result with
    | ok bytes =>
      refine .mono ((ih (snapshot ++ bytes)).since) fun found last hrest hsome => ?_
      exact forall_mem_cons.mpr ⟨hrest.1.keeps.isSome rfl (hresult bytes rfl), hrest.2 hsome⟩
    | error error =>
      cases error with
      | missing message =>
        dsimp only
        split
        · intro hsome
          cases hsome
        · trivial
      | invalid message | conflict message => trivial

omit [Formats] in
theorem validateSnapshotRoot_eq_ok (h : validateSnapshotRoot root gen = .ok value) :
    root = .legacy gen ∨ root = .root gen := by
  simp only [validateSnapshotRoot, bind_eq_ok, refuse_eq_ok] at h
  tauto

theorem PageManifest.fromBytes_eq_ok {maxFileSize : Nat} {manifest : PageManifest}
    (h : PageManifest.fromBytes object gen maxFileSize = .ok manifest) :
    object = .pageManifest manifest := by
  simp only [PageManifest.fromBytes, bind_eq_ok] at h
  obtain ⟨-, -, h⟩ := h
  cases object with
  | pageManifest found =>
    obtain ⟨-, -, h⟩ := bind_eq_ok.mp h
    cases h
    rfl
  | manifest _ | pending _ | bytes _ => cases h

theorem shares_readSnapshotBytes {maxFileSize : Nat} (allowMissing : Bool) :
    Shares (readSnapshotBytes root gen maxFileSize allowMissing) store fun found last =>
      found.isSome → Reaches last root := by
  refine (shares_ofExcept _).bind fun _ _ _ hvalid => ?_
  have hroot := validateSnapshotRoot_eq_ok hvalid
  have hdata : root.isData = true ∧ Area.snapshots.holds root = true := by
    rcases hroot with rfl | rfl <;> simp [Key.isData, Area.holds]
  refine (shares_get root).bind fun found middle _ hfound => ?_
  cases found with
  | none =>
    unfold missingSnapshot
    dsimp only
    split
    · exact nofun
    · trivial
  | some object =>
    dsimp only
    split
    · split
      · refine (shares_ofExcept _).bind fun _ last hgrows _ _ => ?_
        exact ⟨hdata.2, _, hgrows.keeps _ _ hdata.1 hfound, fun _ _ => nofun⟩
      · exact .ofExcept nofun
    · refine (shares_ofExcept _).bind fun manifest first hfirst hread => ?_
      have hobject := PageManifest.fromBytes_eq_ok hread
      refine (shares_gatherPages allowMissing _ _).bind fun snapshot second hsecond hpages => ?_
      cases snapshot with
      | none => exact nofun
      | some snapshot =>
        refine (shares_ofExcept _).bind fun _ last hlast _ _ => ?_
        refine hlast.keeps.reaches ⟨hdata.2, object,
          hsecond.keeps _ _ hdata.1 (hfirst.keeps _ _ hdata.1 hfound), ?_⟩
        rintro found - heq key hkey
        cases hobject.symm.trans heq
        obtain ⟨page, hpage, rfl⟩ := mem_map.mp hkey
        exact hpages rfl page hpage

theorem shares_any {program : Storing α} {ends : α → Store → Prop} (h : Shares program store ends) :
    Shares program store fun _ _ => True :=
  h.mono fun _ _ _ => trivial

theorem shares_attempt {program : Storing α} (h : Shares program store fun _ _ => True) :
    Shares program.attempt store fun _ _ => True :=
  .attempt h fun _ _ => trivial

open ObjectTable

theorem shares_readPendingSnapshot (pending : PendingCommit) :
    Shares (readPendingSnapshot limits pending) store fun complete last => complete = true →
      Reaches last pending.root := by
  have hroot : Shares (rootPublished pending) store fun _ _ => True := by
    unfold rootPublished
    cases pending.pageManifest with
    | none => trivial
    | some expected =>
      refine (shares_get _).bind fun found _ _ _ => ?_
      cases found with
      | none => trivial
      | some stored => exact (shares_ofExcept _).bind fun _ _ _ _ =>
        (shares_ofExcept _).bind fun _ _ _ _ => trivial
  refine hroot.bind fun published middle _ _ => ?_
  split
  · refine (shares_readSnapshotBytes true).bind fun found last _ hreaches => ?_
    cases found with
    | none => exact nofun
    | some snapshot =>
      exact (shares_ofExcept _).bind fun _ final hfinal _ _ => hfinal.keeps.reaches (hreaches rfl)
  · exact nofun

theorem shares_readPending (key : Key) :
    Shares (readPending key) store fun found _ => ∀ pending, found = some pending →
      key = .wal pending.targetGeneration ∧
        (pending.root = .legacy pending.targetGeneration ∨
          pending.root = .root pending.targetGeneration) := by
  refine (shares_get key).bind fun found _ _ _ => ?_
  cases found with
  | none => exact nofun
  | some object =>
    refine (shares_ofExcept _).bind fun pending _ _ _ =>
      (shares_ofExcept _).bind fun _ _ _ hvalid => ?_
    rintro _ ⟨⟩
    simp only [validatePending, bind_eq_ok, refuse_eq_ok, not_not] at hvalid
    obtain ⟨_, hkey, _, hroot, _⟩ := hvalid
    exact ⟨hkey, validateSnapshotRoot_eq_ok hroot⟩

def Reads (expected : Option Object) (current : Option Manifest) : Prop :=
  match current with
  | none => expected = none
  | some manifest => ∃ object, expected = some object ∧ Manifest.fromBytes object = .ok manifest

theorem shares_currentManifest : Shares currentManifest store fun found _ =>
    Reads found.1 found.2 := by
  refine (shares_get _).bind fun found _ _ _ => ?_
  cases found with
  | none => exact rfl
  | some object => exact (shares_ofExcept _).bind fun _ _ _ hread => ⟨object, rfl, hread⟩

theorem shares_validateCurrent (current : Option Manifest) :
    Shares (validateCurrent current) store fun _ _ => ∀ manifest ∈ current,
      manifest.root = .legacy manifest.generation ∨ manifest.root = .root manifest.generation := by
  cases current with
  | none => exact nofun
  | some manifest =>
    refine (shares_ofExcept _).mono fun _ _ hvalid => ?_
    rintro _ ⟨⟩
    exact validateSnapshotRoot_eq_ok hvalid

theorem shares_swap (hread : Reads expected current)
    (hvalid : ∀ manifest ∈ current, manifest.root = .legacy manifest.generation ∨
      manifest.root = .root manifest.generation)
    {next : Manifest} (hhistory : historyWithGeneration current next.generation = .ok next.history)
    (hreaches : Reaches store next.root) :
    Shares (compareAndSwap .manifest expected (.manifest next)) store fun _ _ => True := by
  refine .pass fun middle hmiddle => ⟨?_, fun _ _ => trivial⟩
  simp only [exec]
  split
  · rename_i hexpected
    refine grows_swap fun hsound gen hmem => ?_
    simp only [historyWithGeneration, bind_eq_ok, refuse_eq_ok] at hhistory
    obtain ⟨-, -, hhistory⟩ := hhistory
    rw [manifestHistory, ← Except.ok.inj hhistory, if_neg (by simp), mem_append,
      mem_singleton] at hmem
    by_cases hnew : gen = next.generation
    · refine ⟨next.root, ?_, hmiddle.keeps.reaches hreaches⟩
      rw [IsRootOf, if_pos hnew]
    · have hmem := hmem.resolve_right hnew
      cases current with
      | none => cases hmem
      | some manifest =>
        obtain ⟨object, rfl, hobject⟩ := hread
        obtain ⟨root, hroot, hold⟩ := hsound object manifest hexpected hobject gen hmem
        refine ⟨root, ?_, hold⟩
        unfold IsRootOf at hroot ⊢
        rw [if_neg hnew]
        split at hroot
        · rename_i hcurrent
          rw [hroot, hcurrent]
          exact hvalid manifest rfl
        · exact hroot
  · exact refl_of Grows middle

omit [Formats] in
theorem Manifest.toBytes_eq_ok (h : manifest.toBytes = .ok object) :
    object = .manifest manifest := by
  obtain ⟨-, -, h⟩ := bind_eq_ok.mp h
  exact (Except.ok.inj h).symm

theorem shares_recoverPending {pending : PendingCommit} (hkey : key = .wal pending.targetGeneration)
    (hreaches : Reaches store pending.root) :
    Shares (recoverPending key pending) store fun _ _ => True := by
  subst hkey
  have hremove : ∀ (middle : Store) (value : Bool),
      Shares (do delete (.wal pending.targetGeneration); pure value) middle fun _ _ => True :=
    fun _ _ => shares_delete.bind fun _ _ _ _ => trivial
  refine shares_currentManifest.bind fun found first hfirst hread => ?_
  refine (shares_validateCurrent _).bind fun _ second hsecond hvalid => ?_
  have hpublish : Shares (publishPending found.1 found.2
    (.wal pending.targetGeneration) pending) second
      fun _ _ => True := by
    refine (shares_ofExcept _).bind fun history third hthird hhistory => ?_
    refine (shares_ofExcept _).bind fun object fourth hfourth hobject => ?_
    rw [Manifest.toBytes_eq_ok hobject]
    refine (shares_swap hread hvalid hhistory ?_).bind fun _ _ _ _ => hremove _ _
    exact hfourth.keeps.reaches (hthird.keeps.reaches
      (hsecond.keeps.reaches (hfirst.keeps.reaches hreaches)))
  split
  · exact hremove _ _
  · split
    · exact hpublish
    · split
      · exact hpublish
      · split
        · exact hremove _ _
        · trivial
    · exact hremove _ _
    · trivial

/-- A pending commit that was found complete is at its key, and has its root and its pages. -/
def Complete (store : Store) (entry : Key × PendingCommit) : Prop :=
  entry.1 = .wal entry.2.targetGeneration ∧ Reaches store entry.2.root

theorem shares_completePending (key : Key) :
    Shares (completePending limits key) store fun found last => ∀ entry ∈ found,
      Complete last entry := by
  refine (shares_readPending key).bind fun found middle _ hfound => ?_
  cases found with
  | none => exact nofun
  | some pending =>
    refine (shares_readPendingSnapshot pending).bind fun complete last _ hcomplete entry hentry => ?_
    split at hentry
    · cases hentry
      exact ⟨(hfound pending rfl).1, hcomplete ‹_›⟩
    · cases hentry

theorem shares_collect {γ : Type} {items : List γ} {body : γ → Storing α}
    (h : ∀ item store, Shares (body item) store fun _ _ => True) :
    Shares (collect items body) store fun _ _ => True :=
  shares_any (.collect (fun _ _ => True) (fun _ _ _ _ => id) (fun _ _ _ _ _ => id)
    (fun item store _ => h item store)
    fun _ _ => trivial)

theorem shares_recover : Shares (recover limits) store fun _ _ => True := by
  refine (shares_list .wal).bind fun keys listed _ _ => ?_
  have hfound : Shares (collect keys (completePending limits)) listed fun found last =>
      List.Forall₂ (fun _ value => ∀ entry ∈ value, Complete last entry) keys found :=
    .collect (fun _ _ => True) (fun _ _ _ _ => id)
      (fun _ _ _ _ hlater h entry hentry => (h entry hentry).imp_right hlater.keeps.reaches)
      (fun key _ _ => shares_completePending key) fun _ _ => trivial
  refine hfound.bind fun found middle _ hcomplete => ?_
  have hrecovered : ∀ entries : List (Key × PendingCommit),
    (∀ entry ∈ entries, Complete middle entry) →
      Shares (collect entries fun entry => recoverPending entry.1 entry.2) middle fun _ _ => True :=
        fun entries h =>
    shares_any (.collect (fun entry store => Complete store entry)
      (fun _ _ _ hlater => And.imp_right hlater.keeps.reaches) (fun _ _ _ _ _ => id)
      (fun entry _ h => shares_recoverPending h.1 h.2) h)
  refine (hrecovered _ fun entry hentry => ?_).bind fun _ _ _ _ => trivial
  obtain ⟨value, hvalue, rfl⟩ := mem_filterMap.mp ((perm_insertionSort _ _).mem_iff.mp hentry)
  obtain ⟨i, hi, hvalue⟩ := getElem_of_mem hvalue
  exact (forall₂_iff_get.mp hcomplete).2 i (hcomplete.length_eq ▸ hi) hi entry hvalue

/-- The pages of a plan that are taken over from older generations are present. -/
def Planned (store : Store) (generation : Nat) (snapshot : Bytes) (manifest : PageManifest) : Prop :=
  manifest.generation = generation ∧ manifest.pages.length = (chunks snapshot).length ∧
    ∀ page index, manifest.pages[index]? = some page → page.generation ≠ generation →
      (store.get? (.page page.generation index)).isSome

theorem shares_planPage (previous : Option PageManifest) (entry : Bytes × Nat) :
    Shares (planPage gen previous entry) store fun page last =>
      page.generation ≠ gen → (last.get? (.page page.generation entry.2)).isSome := by
  have hreused : Shares (reusedGeneration previous entry.2 entry.1) store fun reused last =>
      ∀ other ∈ reused, (last.get? (.page other entry.2)).isSome := by
    unfold reusedGeneration
    split
    · intro other hother
      cases hother
    · split
      · refine (shares_get _).bind fun found last _ hfound => ?_
        cases found with
        | none => trivial
        | some old =>
          intro other hother
          split at hother
          · cases hother
            rw [hfound]
            rfl
          · cases hother
      · intro other hother
        cases hother
  refine hreused.bind fun reused last _ h hne => ?_
  cases reused with
  | none => exact absurd rfl hne
  | some other => exact h other rfl

theorem shares_makeManifest (previousRoot : Option Key) (snapshot : Bytes) :
    Shares (makeManifest gen previousRoot snapshot) store fun manifest last =>
      Planned last gen snapshot manifest := by
  have hprevious : Shares (loadPreviousManifest previousRoot) store fun _ _ => True := by
    unfold loadPreviousManifest
    split
    · refine (shares_get _).bind fun found _ _ _ => ?_
      cases found with
      | none => trivial
      | some object => exact (shares_any (shares_ofExcept _)).bind fun _ _ _ _ => trivial
    · trivial
  refine hprevious.bind fun previous middle _ _ => ?_
  have hpages : Shares (collect (chunks snapshot).zipIdx
    (planPage gen previous)) middle fun pages last =>
      List.Forall₂ (fun entry page => page.generation ≠ gen →
        (last.get? (.page page.generation entry.2)).isSome) (chunks snapshot).zipIdx pages :=
    .collect (fun _ _ => True) (fun _ _ _ _ => id)
      (fun _ _ _ _ hlater h hne => hlater.keeps.isSome rfl (h hne))
      (fun entry _ _ => shares_planPage previous entry) fun _ _ => trivial
  refine hpages.bind fun pages last _ hpages => ⟨rfl, ?_, fun page index hpage hne => ?_⟩
  · rw [← hpages.length_eq, List.length_zipIdx]
  · obtain ⟨hindex, rfl⟩ := List.getElem?_eq_some_iff.mp hpage
    have hplan := (List.forall₂_iff_get.mp hpages).2 index (hpages.length_eq ▸ hindex) hindex hne
    rwa [List.get_eq_getElem, List.get_eq_getElem, List.getElem_zipIdx, Nat.zero_add] at hplan

theorem shares_publishPages {manifest : PageManifest} {snapshot : Bytes}
    (hplanned : Planned store gen snapshot manifest) :
    Shares (publishPages manifest snapshot) store fun _ last => Reaches last (.root gen) := by
  obtain ⟨rfl, hlength, hreused⟩ := hplanned
  have hpublished : Shares (collect (manifest.pages.zip (chunks snapshot)).zipIdx
    (publishPage manifest.generation)) store
      fun _ last => ∀ entry ∈ (manifest.pages.zip (chunks snapshot)).zipIdx,
        entry.1.1.generation = manifest.generation →
          (last.get? (.page entry.1.1.generation entry.2)).isSome := by
    have hpage : ∀ entry start, Shares (publishPage manifest.generation entry) start fun _ last =>
        entry.1.1.generation = manifest.generation →
          (last.get? (.page entry.1.1.generation entry.2)).isSome := by
      intro entry start
      unfold publishPage
      split
      · refine (shares_put (.page _ _) (by simp)).mono fun _ last hstored _ => ?_
        rw [hstored rfl]
        rfl
      · exact fun heq => absurd heq ‹_›
    refine (Guarded.collect (fun _ _ => True) (fun _ _ _ _ => id)
      (fun _ _ _ _ hlater h heq => hlater.keeps.isSome rfl (h heq))
        (fun entry start _ => hpage entry start)
      fun _ _ => trivial).mono fun values last hall entry hentry => ?_
    obtain ⟨i, hi, rfl⟩ := getElem_of_mem hentry
    exact (forall₂_iff_get.mp hall).2 i hi (hall.length_eq ▸ hi)
  refine hpublished.bind fun _ middle hmiddle hown =>
    (shares_ofExcept _).bind fun object last hlast hobject => ?_
  have hobject : object = .pageManifest manifest := by
    simp only [PageManifest.toBytes, bind_eq_ok] at hobject
    obtain ⟨-, -, -, -, hobject⟩ := hobject
    exact (Except.ok.inj hobject).symm
  refine (shares_put (.root _) (by simp)).since.mono fun _ final hput =>
    ⟨rfl, object, hput.2 rfl, ?_⟩
  rintro found - hfound key hkey
  cases hobject.symm.trans hfound
  obtain ⟨⟨page, index⟩, hpage, rfl⟩ := mem_map.mp hkey
  have hpage := mem_zipIdx_iff_getElem?.mp hpage
  apply hput.1.keeps.isSome rfl
  apply hlast.keeps.isSome rfl
  by_cases hgeneration : page.generation = manifest.generation
  · obtain ⟨bytes, hbytes⟩ : ∃ bytes, (chunks snapshot)[index]? = some bytes :=
      ⟨_, List.getElem?_eq_getElem (hlength ▸ (List.getElem?_eq_some_iff.mp hpage).1)⟩
    exact hown ((page, bytes), index) (mem_zipIdx_iff_getElem?.mpr
      (getElem?_zip_eq_some.mpr ⟨hpage, hbytes⟩))
      hgeneration
  · exact hmiddle.keeps.isSome rfl (hreused page index hpage hgeneration)

theorem shares_publish (hread : Reads expected current)
    (hvalid : ∀ manifest ∈ current, manifest.root = .legacy manifest.generation ∨
      manifest.root = .root manifest.generation)
    (snapshot : Bytes) : Shares (publish expected current gen snapshot) store fun _ _ => True := by
  have hremove : ∀ (middle : Store) (error : ObjectStoreError), Shares (do
      let _ ← (delete (.wal gen)).attempt
      .fail error : Storing CommitResult) middle fun _ _ => True :=
    fun _ _ => (shares_attempt shares_delete).bind fun _ _ _ _ => trivial
  refine (shares_makeManifest _ _).bind fun plan first _ hplan => ?_
  refine (shares_ofExcept _).bind fun pending second hsecond _ => ?_
  refine (shares_put (.wal _) nofun).bind fun _ third hthird _ => ?_
  have hplan : Planned third gen snapshot plan := ⟨hplan.1, hplan.2.1, fun page index hpage hne =>
    hthird.keeps.isSome rfl (hsecond.keeps.isSome rfl (hplan.2.2 page index hpage hne))⟩
  have hpublished : Shares (publishPages plan snapshot).attempt third fun result last =>
      result = .ok () → Reaches last (.root gen) :=
    .attempt ((shares_publishPages hplan).mono fun _ _ hreaches _ => hreaches) fun _ _ => nofun
  refine hpublished.bind fun result fourth _ hreaches => ?_
  match result with
  | .error (.conflict _) => exact hremove _ _
  | .error (.invalid _) | .error (.missing _) => trivial
  | .ok () =>
    refine (shares_ofExcept _).bind fun history fifth hfifth hhistory => ?_
    refine (shares_ofExcept _).bind fun object sixth hsixth hobject => ?_
    rw [Manifest.toBytes_eq_ok hobject]
    have hroot := hsixth.keeps.reaches (hfifth.keeps.reaches (hreaches rfl))
    refine (shares_attempt (shares_swap hread hvalid hhistory hroot)).bind fun result _ _ _ => ?_
    match result with
    | .ok () => exact shares_delete.bind fun _ _ _ _ => trivial
    | .error (.conflict _) => exact hremove _ _
    | .error (.invalid _) | .error (.missing _) => trivial

theorem shares_commit (table : Formats.Table) :
    Shares (commit limits table) store fun _ _ => True := by
  refine shares_recover.bind fun _ _ _ _ => (shares_ofExcept _).bind fun snapshot _ _ _ => ?_
  refine shares_currentManifest.bind fun found middle _ hread => ?_
  obtain ⟨expected, current⟩ := found
  have hpending : ∀ base target start, Shares
      (rejectIncompatiblePending base target) start fun _ _ => True := by
    intro base target start
    refine (shares_list _).bind fun keys _ _ _ =>
      (shares_collect fun key _ => ?_).bind fun _ _ _ _ => trivial
    refine (shares_readPending key).bind fun found _ _ _ => ?_
    cases found with
    | none => trivial
    | some pending =>
      dsimp only
      split <;> trivial
  cases current with
  | none => exact (hpending _ _ _).bind fun _ _ _ _ => shares_publish hread nofun snapshot
  | some manifest =>
    refine (shares_ofExcept _).bind fun _ _ _ hvalid => (shares_ofExcept _).bind fun _ _ _ _ => ?_
    split
    · refine (shares_readSnapshotBytes false).bind fun found _ _ _ => ?_
      cases found with
      | none => trivial
      | some bytes =>
        dsimp only
        split <;> trivial
    · refine (hpending _ _ _).bind fun _ _ _ _ => shares_publish hread ?_ snapshot
      rintro _ ⟨⟩
      exact validateSnapshotRoot_eq_ok hvalid

theorem shares_readSnapshot (root : Key) :
    Shares (readSnapshot limits root gen) store fun _ _ => True := by
  refine (shares_ofExcept _).bind fun _ _ _ _ =>
    (shares_readSnapshotBytes false).bind fun found _ _ _ => ?_
  cases found with
  | none => trivial
  | some snapshot => exact shares_any (shares_ofExcept _)

theorem shares_read : Shares (read limits) store fun _ _ => True := by
  refine shares_recover.bind fun _ _ _ _ => shares_currentManifest.bind fun found _ _ _ => ?_
  obtain ⟨-, current⟩ := found
  cases current with
  | none => trivial
  | some manifest => exact (shares_readSnapshot _).bind fun _ _ _ _ => trivial

theorem shares_readAt (gen : Nat) : Shares (readAt limits gen) store fun _ _ => True := by
  refine shares_recover.bind fun _ _ _ _ => shares_currentManifest.bind fun found _ _ _ => ?_
  obtain ⟨-, current⟩ := found
  cases current with
  | none => trivial
  | some manifest =>
    refine (shares_ofExcept _).bind fun _ _ _ _ => ?_
    split
    · have hroot : ∀ start, Shares (snapshotRootForGeneration gen) start fun _ _ => True := by
        refine fun start => (shares_list _).bind fun roots _ _ _ => ?_
        split
        · split <;> trivial
        · trivial
      refine (hroot _).bind fun root _ _ _ => ?_
      cases root with
      | none => trivial
      | some root => exact (shares_readSnapshot root).bind fun _ _ _ _ => trivial
    · trivial

end Shared

end TxBase.Edge

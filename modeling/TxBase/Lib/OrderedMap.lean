import Mathlib.Data.List.Basic
import Mathlib.Order.Lattice

/-! Ordered maps as association lists in key order.  Insertion keeps the order, so
two maps built from ordered ones print and compare alike; lookup does not rely
on it. -/
namespace TxBase.Lib
open List

abbrev OrderedMap (κ α : Type) := List (κ × α)

namespace OrderedMap
variable {κ α β : Type} [DecidableEq κ]

def get? (key : κ) : OrderedMap κ α → Option α
  | [] => none
  | (head, value) :: rest => if head = key then some value else get? key rest

def erase (key : κ) (entries : OrderedMap κ α) : OrderedMap κ α :=
  entries.filter fun entry => entry.1 ≠ key

def keys (entries : OrderedMap κ α) : List κ := entries.map Prod.fst

@[simp] theorem get?_nil (key : κ) : get? key ([] : OrderedMap κ α) = none := rfl

variable {key : κ} {entries : OrderedMap κ α}

theorem mem_keys_erase {other : κ} :
    other ∈ (erase key entries).keys ↔ other ≠ key ∧ other ∈ entries.keys := by
  simp only [keys, erase, mem_map, mem_filter, decide_eq_true_eq]
  constructor
  · rintro ⟨entry, ⟨hmem, hne⟩, rfl⟩
    exact ⟨hne, entry, hmem, rfl⟩
  · rintro ⟨hne, entry, hmem, rfl⟩
    exact ⟨entry, ⟨hmem, hne⟩, rfl⟩

theorem get?_erase (key other : κ) (entries : OrderedMap κ α) :
    get? other (erase key entries) = if other = key then none else get? other entries := by
  induction entries with
  | nil => simp [erase]
  | cons entry rest ih =>
    obtain ⟨head, old⟩ := entry
    unfold erase at ih ⊢
    by_cases hhead : head = key
    · rw [filter_cons_of_neg (by simp [hhead]), ih]
      by_cases hother : other = key
      · simp [hother]
      · simp [hother, get?, hhead, Ne.symm hother]
    · rw [filter_cons_of_pos (by simp [hhead])]
      simp only [get?, ih]
      by_cases hother : other = key
      · simp [hother, hhead]
      · simp [hother]

theorem get?_eq_none_iff (key : κ) (entries : OrderedMap κ α) :
    get? key entries = none ↔ key ∉ entries.map Prod.fst := by
  induction entries with
  | nil => simp
  | cons entry rest ih =>
    obtain ⟨head, value⟩ := entry
    by_cases hkey : head = key
    · simp [get?, hkey]
    · simp [get?, hkey, ih, Ne.symm hkey]

theorem get?_eq_none {entries : OrderedMap κ α} (h : ∀ entry ∈ entries, entry.1 ≠ key) :
    get? key entries = none := by
  rw [get?_eq_none_iff, mem_map]
  rintro ⟨entry, hentry, rfl⟩
  exact h entry hentry rfl

variable {value : α}

theorem get?_of_mem (hnodup : (entries.map Prod.fst).Nodup) (hmem : (key, value) ∈ entries) :
    get? key entries = some value := by
  induction entries with
  | nil => cases hmem
  | cons entry rest ih =>
    obtain ⟨head, other⟩ := entry
    rw [map_cons, nodup_cons] at hnodup
    rw [get?]
    rcases mem_cons.mp hmem with heq | hmem
    · cases heq
      rw [if_pos rfl]
    · rw [if_neg, ih hnodup.2 hmem]
      rintro rfl
      exact hnodup.1 (mem_map.mpr ⟨(head, value), hmem, rfl⟩)

theorem mem_of_get? (h : get? key entries = some value) : (key, value) ∈ entries := by
  induction entries with
  | nil => cases h
  | cons entry rest ih =>
    obtain ⟨head, other⟩ := entry
    rw [get?] at h
    split at h
    · rename_i hkey
      cases h
      rw [hkey]
      exact mem_cons_self
    · exact mem_cons_of_mem _ (ih h)

theorem get?_append (key : κ) (left right : OrderedMap κ α) :
    get? key (left ++ right) = (get? key left).or (get? key right) := by
  induction left with
  | nil => rfl
  | cons entry rest ih =>
    obtain ⟨head, value⟩ := entry
    rw [cons_append, get?, get?, ih]
    split <;> rfl

variable [LT κ] [DecidableLT κ]

def insert (key : κ) (value : α) : OrderedMap κ α → OrderedMap κ α
  | [] => [(key, value)]
  | (head, old) :: rest =>
      if head = key then (key, value) :: rest
      else if key < head then (key, value) :: (head, old) :: rest
      else (head, old) :: insert key value rest

def push (key : κ) (value : β) (map : OrderedMap κ (List β)) : OrderedMap κ (List β) :=
  insert key ((get? key map).getD [] ++ [value]) map

/-- A map from its entries, later ones first in precedence: `collect`, or one
`insert` after the other. -/
def ofList (entries : List (κ × α)) : OrderedMap κ α :=
  entries.foldl (fun map entry => insert entry.1 entry.2 map) []

def extend (map : OrderedMap κ α) (entries : List (κ × α)) : OrderedMap κ α :=
  entries.foldl (fun map entry => insert entry.1 entry.2 map) map

@[simp] theorem get?_insert_self (key : κ) (value : α) (entries : OrderedMap κ α) :
    get? key (insert key value entries) = some value := by
  induction entries with
  | nil => simp [insert, get?]
  | cons entry rest ih =>
    obtain ⟨head, old⟩ := entry
    unfold insert
    split
    · simp [get?]
    · rename_i hhead
      split
      · simp [get?]
      · simp only [get?, if_neg hhead, ih]

theorem get?_insert_ne {other : κ} (value : α) (entries : OrderedMap κ α) (hne : other ≠ key) :
    get? other (insert key value entries) = get? other entries := by
  induction entries with
  | nil => simp [insert, get?, hne.symm]
  | cons entry rest ih =>
    obtain ⟨head, old⟩ := entry
    unfold insert
    split
    · rename_i hhead
      simp [get?, hhead, hne.symm]
    · split
      · simp [get?, hne.symm]
      · simp only [get?, ih]

theorem get?_insert (key other : κ) (value : α) (entries : OrderedMap κ α) :
    get? other (insert key value entries) =
      if other = key then some value else get? other entries := by
  split
  · rename_i heq
    rw [heq, get?_insert_self]
  · rename_i hne
    exact get?_insert_ne value entries hne

theorem insert_insert (key : κ) (first second : α) (entries : OrderedMap κ α) :
    insert key second (insert key first entries) = insert key second entries := by
  induction entries with
  | nil => simp [insert]
  | cons entry rest ih =>
    obtain ⟨head, old⟩ := entry
    by_cases hhead : head = key
    · simp [insert, hhead]
    · by_cases hlt : key < head
      · simp [insert, hhead, hlt]
      · simp [insert, hhead, hlt, ih]

theorem get?_extend (entries : List (κ × α)) (map : OrderedMap κ α) (key : κ)
    (hnodup : (entries.map Prod.fst).Nodup) :
    get? key (extend map entries) = (get? key entries).or (get? key map) := by
  induction entries generalizing map with
  | nil => rfl
  | cons entry rest ih =>
    obtain ⟨head, value⟩ := entry
    rw [map_cons, nodup_cons] at hnodup
    have hstep : extend map ((head, value) :: rest) = extend (insert head value map) rest := rfl
    rw [hstep, ih _ hnodup.2, get?_insert]
    by_cases hkey : head = key
    · subst hkey
      rw [(get?_eq_none_iff head rest).mpr hnodup.1]
      simp [get?]
    · simp [get?, hkey, Ne.symm hkey]

theorem get?_extend_of_notMem {entries : List (κ × α)} (map : OrderedMap κ α)
    (h : key ∉ entries.map Prod.fst) :
    get? key (extend map entries) = get? key map := by
  induction entries generalizing map with
  | nil => rfl
  | cons entry rest ih =>
    rw [map_cons, mem_cons, not_or] at h
    exact (ih (insert entry.1 entry.2 map) h.2).trans (get?_insert_ne entry.2 map h.1)

theorem get?_ofList (entries : List (κ × α)) (key : κ)
    (hnodup : (entries.map Prod.fst).Nodup) : get? key (ofList entries) = get? key entries := by
  have hextend := get?_extend entries [] key hnodup
  simpa [extend, ofList] using hextend

theorem mem_insert {entry : κ × α} (h : entry ∈ insert key value entries) :
    entry = (key, value) ∨ entry ∈ entries := by
  induction entries with
  | nil => exact .inl (mem_singleton.mp h)
  | cons head rest ih =>
    unfold insert at h
    split at h
    · exact (mem_cons.mp h).imp id (mem_cons_of_mem _)
    · split at h
      · exact mem_cons.mp h
      · rcases mem_cons.mp h with rfl | h
        · exact .inr mem_cons_self
        · exact (ih h).imp id (mem_cons_of_mem _)

theorem get?_foldl_push {ι : Type} (f : ι → κ) (g : ι → β) (items : List ι)
    (map : OrderedMap κ (List β)) (key : κ) :
    get? key (items.foldl (fun map item => push (f item) (g item) map) map) =
      if ∀ item ∈ items, f item ≠ key then get? key map
      else some ((get? key map).getD [] ++ (items.filter fun item => f item = key).map g) := by
  induction items generalizing map with
  | nil => simp
  | cons item rest ih =>
    rw [foldl_cons, ih, push, get?_insert]
    by_cases hitem : f item = key
    · subst hitem
      by_cases hrest : ∀ other ∈ rest, f other ≠ f item
      · have hnone : rest.filter (fun other => f other = f item) = [] := by
          rw [filter_eq_nil_iff]
          simpa using hrest
        simp [hnone]
      · simp [hrest]
    · by_cases hrest : ∀ other ∈ rest, f other ≠ key <;>
        simp [hitem, Ne.symm hitem, hrest]

section Ascending
variable {κ α β : Type} [LinearOrder κ]

def Ascending (entries : OrderedMap κ α) : Prop :=
  entries.Pairwise fun left right => left.1 < right.1

variable {entries : OrderedMap κ α}

section
variable (h : Ascending entries)
include h

theorem Ascending.nodup : (entries.map Prod.fst).Nodup := by
  rw [nodup_iff_pairwise_ne, pairwise_map]
  exact h.imp ne_of_lt

theorem Ascending.head_le {first entry : κ × α} (hfirst : entries.head? = some first)
    (hentry : entry ∈ entries) : first.1 ≤ entry.1 := by
  cases entries with
  | nil => cases hentry
  | cons head rest =>
    cases hfirst
    rcases mem_cons.mp hentry with rfl | hrest
    · exact le_refl _
    · exact le_of_lt ((pairwise_cons.mp h).1 entry hrest)

theorem Ascending.insert (key : κ) (value : α) :
    Ascending (OrderedMap.insert key value entries) := by
  induction entries with
  | nil => exact pairwise_singleton _ _
  | cons entry rest ih =>
    obtain ⟨head, old⟩ := entry
    rw [Ascending, pairwise_cons] at h
    unfold OrderedMap.insert
    split
    · rename_i heq
      subst heq
      exact pairwise_cons.mpr h
    · rename_i hne
      split
      · rename_i hlt
        refine pairwise_cons.mpr ⟨?_, pairwise_cons.mpr h⟩
        intro other hother
        rcases mem_cons.mp hother with rfl | hother
        · exact hlt
        · exact lt_trans hlt (h.1 other hother)
      · rename_i hge
        refine pairwise_cons.mpr ⟨?_, ih h.2⟩
        intro other hother
        rcases mem_insert hother with rfl | hother
        · exact lt_of_le_of_ne (not_lt.mp hge) hne
        · exact h.1 other hother

theorem Ascending.erase (key : κ) : Ascending (OrderedMap.erase key entries) :=
  List.Pairwise.filter _ h

/-- Maps in key order are determined by their lookups. -/
theorem Ascending.ext {other : OrderedMap κ α} (hother : Ascending other)
    (hget : ∀ key, get? key entries = get? key other) : entries = other := by
  have hmem : ∀ {map : OrderedMap κ α}, Ascending map → ∀ entry, entry ∈ map ↔
      get? entry.1 map = some entry.2 :=
    fun hmap _ => ⟨get?_of_mem hmap.nodup, mem_of_get?⟩
  have hnodup : ∀ {map : OrderedMap κ α}, Ascending map → map.Nodup := fun hmap =>
    hmap.imp fun hlt heq => absurd (congrArg Prod.fst heq) (ne_of_lt hlt)
  have hperm : entries.Perm other :=
    (perm_ext_iff_of_nodup (hnodup h) (hnodup hother)).mpr fun entry => by
    rw [hmem h, hmem hother, hget]
  exact hperm.eq_of_pairwise (fun _ _ _ _ hlt hgt => absurd hgt (lt_asymm hlt)) h hother

end

theorem Ascending.foldl_push {ι : Type} (f : ι → κ) (g : ι → β) (items : List ι)
    {map : OrderedMap κ (List β)} (h : Ascending map) :
    Ascending (items.foldl (fun map item => push (f item) (g item) map) map) := by
  induction items generalizing map with
  | nil => exact h
  | cons item rest ih => exact ih (h.insert _ _)

variable {key : κ}

theorem mem_foldl_push {ι : Type} (f : ι → κ) (g : ι → β) (items : List ι) {values : List β} :
    (key, values) ∈ items.foldl (fun map item => push (f item) (g item) map) [] ↔
      values ≠ [] ∧ values = (items.filter fun item => f item = key).map g := by
  have hascending : Ascending (items.foldl (fun map item => push (f item) (g item) map) []) :=
    Ascending.foldl_push f g items List.Pairwise.nil
  have hget : (key, values) ∈ items.foldl (fun map item => push (f item) (g item) map) [] ↔
      get? key (items.foldl (fun map item => push (f item) (g item) map) []) = some values :=
    ⟨get?_of_mem hascending.nodup, mem_of_get?⟩
  rw [hget, get?_foldl_push]
  split
  · rename_i hnone
    have hempty : items.filter (fun item => f item = key) = [] := by
      rw [filter_eq_nil_iff]
      simpa using hnone
    simp only [get?_nil, reduceCtorEq, false_iff, hempty, map_nil]
    exact fun h => h.1 h.2
  · rename_i hsome
    have hne : (items.filter fun item => f item = key).map g ≠ [] := by
      intro hempty
      rw [map_eq_nil_iff, filter_eq_nil_iff] at hempty
      exact hsome (by simpa using hempty)
    simp only [get?_nil, Option.getD_none, nil_append, Option.some.injEq]
    constructor
    · rintro rfl
      exact ⟨hne, rfl⟩
    · rintro ⟨-, rfl⟩
      rfl

theorem insert_between {left right : OrderedMap κ α} (value : α)
    (hleft : ∀ entry ∈ left, entry.1 < key)
    (hright : ∀ entry ∈ right, key < entry.1) :
    OrderedMap.insert key value (left ++ right) = left ++ (key, value) :: right := by
  induction left with
  | nil =>
    cases right with
    | nil => rfl
    | cons entry rest =>
      have hlt := hright entry mem_cons_self
      rw [nil_append, OrderedMap.insert, if_neg (ne_of_gt hlt), if_pos hlt]
      rfl
  | cons entry rest ih =>
    have hlt := hleft entry mem_cons_self
    rw [cons_append, OrderedMap.insert, if_neg (ne_of_lt hlt), if_neg (lt_asymm hlt),
      ih (forall_mem_cons.mp hleft).2]
    rfl

theorem insert_last (h : ∀ entry ∈ entries, entry.1 < key) (value : α) :
    OrderedMap.insert key value entries = entries ++ [(key, value)] := by
  have hbetween := insert_between value h (fun entry hentry => (not_mem_nil hentry).elim)
  rwa [append_nil] at hbetween

end Ascending

end OrderedMap

end TxBase.Lib

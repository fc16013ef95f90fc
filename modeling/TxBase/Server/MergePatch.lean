import Mathlib.Data.String.Basic
import TxBase.Json.Value

/-! Merge patches of records, `src/server/merge_patch.rs`, against RFC 7396. -/
namespace TxBase.Server
open Lib Json List
open OrderedMap (Ascending get?)
variable {target current patch : Map} {key : String} {value : Value}

mutual

def mergePatchValue (target : Value) : Value → Value
  | .object patch => .object (mergeMembers (target.asObject.getD []) patch)
  | patch => patch

def mergeMembers (target : Map) : List (String × Value) → Map
  | [] => target
  | (key, value) :: rest =>
      mergeMembers
        (if value.isNull then target.erase key
        else target.insert key (mergePatchValue ((target.get? key).getD .null) value)) rest

end

/-- `entry(key).or_insert(Value::Null)` for each of the keys. -/
def orNull (map : Map) (keys : List String) : Map :=
  keys.foldl (fun map key => if (map.get? key).isSome then map else map.insert key .null) map

def unknownNullFields (current patch : Map) : List String :=
  (patch.filter fun entry => entry.2.isNull && !(current.get? entry.1).isSome).map Prod.fst

def applyMergePatch (current patch : Map) : Map :=
  orNull (orNull (mergeMembers current patch) current.keys) (unknownNullFields current patch)

def materializeRemovedFields (current patched : Map) : Map := orNull patched current.keys

mutual

/-- `MergePatch` of RFC 7396; the target may be undefined. -/
def rfcMerge (target : Option Value) : Value → Value
  | .object patch => .object (rfcMembers ((target.bind Value.asObject).getD []) patch)
  | patch => patch

def rfcMembers (target : Map) : List (String × Value) → Map
  | [] => target
  | (key, .null) :: rest => rfcMembers (target.erase key) rest
  | (key, value) :: rest => rfcMembers (target.insert key (rfcMerge (target.get? key) value)) rest

end

mutual

theorem mergePatchValue_eq (target : Option Value) : (patch : Value) →
    mergePatchValue (target.getD .null) patch = rfcMerge target patch
  | .object patch => by
      rw [mergePatchValue, rfcMerge, mergeMembers_eq]
      rcases target with _ | _ | _ | _ | _ | _ | _ <;> rfl
  | .null | .bool _ | .number _ | .string _ | .array _ => rfl

theorem mergeMembers_eq (target : Map) : (patch : List (String × Value)) →
    mergeMembers target patch = rfcMembers target patch
  | [] => rfl
  | (key, value) :: rest => by
      have hvalue := mergePatchValue_eq (target.get? key) value
      cases value <;> simp only [mergeMembers, rfcMembers, Value.isNull, hvalue,
        mergeMembers_eq _ rest, if_true,
        Bool.false_eq_true, if_false]

end

theorem get?_orNull (map : Map) (keys : List String) (key : String) :
    (orNull map keys).get? key = (map.get? key).or (if key ∈ keys then some .null else none) := by
  induction keys generalizing map with
  | nil => simp [orNull]
  | cons first rest ih =>
    rw [orNull, foldl_cons, ← orNull, ih]
    by_cases hfirst : (map.get? first).isSome
    · rw [if_pos hfirst]
      by_cases hkey : key = first
      · obtain ⟨value, hvalue⟩ := Option.isSome_iff_exists.mp hfirst
        rw [hkey, hvalue]
        rfl
      · simp [hkey]
    · rw [if_neg hfirst, OrderedMap.get?_insert]
      by_cases hkey : key = first
      · simp_all
      · simp [hkey]

theorem isNull_iff : value.isNull = true ↔ value = .null := by
  cases value <;> simp [Value.isNull]

theorem mem_unknownNullFields :
    key ∈ unknownNullFields current patch ↔ (key, .null) ∈ patch ∧ key ∉ current.keys := by
  simp only [unknownNullFields, mem_map, mem_filter, Bool.and_eq_true, isNull_iff, Bool.not_eq_true',
    Option.isSome_eq_false_iff, Option.isNone_iff_eq_none, OrderedMap.get?_eq_none_iff,
      OrderedMap.keys]
  constructor
  · rintro ⟨⟨_, _⟩, ⟨hmem, rfl, hnew⟩, rfl⟩
    exact ⟨hmem, hnew⟩
  · rintro ⟨hmem, hnew⟩
    exact ⟨(key, .null), ⟨hmem, rfl, hnew⟩, rfl⟩

theorem get?_applyMergePatch (current patch : Map) (key : String) :
    (applyMergePatch current patch).get? key = ((mergeMembers current patch).get? key).or
      (if key ∈ current.keys ∨ (key, .null) ∈ patch then some .null else none) := by
  rw [applyMergePatch, get?_orNull, get?_orNull, Option.or_assoc]
  congr 1
  by_cases hcurrent : key ∈ current.keys <;> by_cases hpatch : (key, .null) ∈ patch <;>
    simp only [mem_unknownNullFields, hcurrent, hpatch, not_true_eq_false, not_false_eq_true,
      and_true, and_false,
      or_true, true_or, or_self, if_true, if_false, Option.or_none, Option.none_or, Option.or_self]

theorem get?_mergeMembers (target : Map) (hnodup : (patch.map Prod.fst).Nodup) (key : String) :
    (mergeMembers target patch).get? key = match patch.get? key with
      | none => target.get? key
      | some value =>
          if value.isNull then none else some
            (mergePatchValue ((target.get? key).getD .null) value) := by
  induction patch generalizing target with
  | nil => rw [mergeMembers]; rfl
  | cons entry rest ih =>
    obtain ⟨first, value⟩ := entry
    rw [map_cons, nodup_cons] at hnodup
    have hrest : first = key → get? key rest = none := by
      rintro rfl
      exact (OrderedMap.get?_eq_none_iff first rest).mpr hnodup.1
    rw [mergeMembers, ih _ hnodup.2, get?]
    by_cases hkey : first = key
    · rw [hrest hkey, if_pos hkey]
      cases hnull : value.isNull <;> simp [OrderedMap.get?_erase, hkey, hnull]
    · rw [if_neg hkey]
      cases value.isNull <;> simp [OrderedMap.get?_erase, OrderedMap.get?_insert, Ne.symm hkey]

section Idempotence

mutual

/-- The objects inside a value, those of arrays apart, have their keys in order. -/
def Ordered : Value → Prop
  | .object members => Ascending members ∧ OrderedMembers members
  | _ => True

def OrderedMembers : List (String × Value) → Prop
  | [] => True
  | (_, value) :: rest => Ordered value ∧ OrderedMembers rest

end

theorem ascending_mergeMembers (h : Ascending target) (patch : Map) :
    Ascending (mergeMembers target patch) := by
  induction patch generalizing target with
  | nil => rwa [mergeMembers]
  | cons entry rest ih =>
    obtain ⟨key, value⟩ := entry
    rw [mergeMembers]
    split
    · exact ih (h.erase key)
    · exact ih (h.insert key _)

theorem ascending_orNull (h : Ascending target) (keys : List String) :
    Ascending (orNull target keys) := by
  induction keys generalizing target with
  | nil => exact h
  | cons key rest ih =>
    rw [orNull, foldl_cons]
    split
    · exact ih h
    · exact ih (h.insert key _)

theorem ordered_getD (h : OrderedMembers target) (key : String) :
    Ordered ((target.get? key).getD .null) := by
  induction target with
  | nil => trivial
  | cons entry rest ih =>
    obtain ⟨first, value⟩ := entry
    rw [OrderedMembers] at h
    rw [get?]
    split
    · exact h.1
    · exact ih h.2

mutual

theorem mergePatchValue_again {target : Value} (h : Ordered target) :
    (patch : Value) → Ordered patch →
    mergePatchValue (mergePatchValue target patch) patch = mergePatchValue target patch
  | .object patch, hpatch => by
      have hmembers : Ascending (target.asObject.getD []) ∧
          OrderedMembers (target.asObject.getD []) := by
        cases target with
        | object members => exact h
        | _ => exact ⟨.nil, trivial⟩
      rw [Ordered] at hpatch
      simp only [mergePatchValue, Value.asObject, Option.getD_some, Value.object.injEq]
      apply Ascending.ext (ascending_mergeMembers (ascending_mergeMembers hmembers.1 _) _)
        (ascending_mergeMembers hmembers.1 _)
      intro key
      rw [get?_mergeMembers _ hpatch.1.nodup, get?_mergeMembers _ hpatch.1.nodup]
      cases hget : get? key patch with
      | none => rfl
      | some value =>
        dsimp only
        split
        · rfl
        · rw [Option.getD_some, mergeMember_again hmembers.2 key patch hpatch.2 value hget]
  | .null, _ | .bool _, _ | .number _, _ | .string _, _ | .array _, _ => rfl

theorem mergeMember_again {target : Map} (h : OrderedMembers target) (key : String) :
    (patch : List (String × Value)) → OrderedMembers patch →
      ∀ value, get? key patch = some value →
    mergePatchValue (mergePatchValue ((target.get? key).getD .null) value) value =
      mergePatchValue ((target.get? key).getD .null) value
  | [], _, _, hget => nomatch hget
  | (first, member) :: rest, hpatch, value, hget => by
      rw [OrderedMembers] at hpatch
      rw [get?] at hget
      split at hget
      · cases hget
        exact mergePatchValue_again (ordered_getD h key) member hpatch.1
      · exact mergeMember_again h key rest hpatch.2 value hget

end

theorem applyMergePatch_again (hcurrent : Ordered (.object current))
    (hpatch : Ordered (.object patch)) :
    applyMergePatch (applyMergePatch current patch) patch = applyMergePatch current patch := by
  rw [Ordered] at hcurrent hpatch
  have hascending : ∀ {target}, Ascending target → Ascending (applyMergePatch target patch) :=
    fun htarget =>
    ascending_orNull (ascending_orNull (ascending_mergeMembers htarget patch) _) _
  apply Ascending.ext (hascending (hascending hcurrent.1)) (hascending hcurrent.1)
  intro key
  have hkeys : key ∉ (applyMergePatch current patch).keys ↔
      (applyMergePatch current patch).get? key = none :=
    (OrderedMap.get?_eq_none_iff key _).symm
  rw [get?_applyMergePatch (applyMergePatch current patch), get?_mergeMembers _ hpatch.1.nodup]
  cases hget : get? key patch with
  | none =>
    have hnull : (key, .null) ∉ patch := fun hmem => by
      rw [OrderedMap.get?_of_mem hpatch.1.nodup hmem] at hget
      cases hget
    dsimp only
    cases hfound : (applyMergePatch current patch).get? key with
    | none => simp [hkeys.mpr hfound, hnull]
    | some value => rfl
  | some value =>
    have hmem := OrderedMap.mem_of_get? hget
    have hfirst := get?_applyMergePatch current patch key
    rw [get?_mergeMembers _ hpatch.1.nodup, hget] at hfirst
    dsimp only at hfirst ⊢
    split at hfirst
    · rename_i hnull
      rw [isNull_iff.mp hnull] at hmem
      rw [hfirst, if_pos hnull, if_pos (.inr hmem), if_pos (.inr hmem)]
    · rename_i hsome
      rw [hfirst, if_neg hsome, Option.some_or, Option.some_or, Option.getD_some,
        mergeMember_again hcurrent.2 key patch hpatch.2 value hget]

end Idempotence

/-- A merge patch gives the result of RFC 7396, in which the keys of the record and those that the
patch sets to null are null instead of absent; a second application changes nothing. -/
theorem merge_patch_law (hcurrent : Ordered (.object current)) (hpatch : Ordered (.object patch)) :
    (∀ key, (applyMergePatch current patch).get? key =
      ((rfcMerge (some (.object current)) (.object patch)).asObject.bind (get? key)).or
        (if key ∈ current.keys ∨ (key, .null) ∈ patch then some .null else none)) ∧
    applyMergePatch (applyMergePatch current patch) patch = applyMergePatch current patch ∧
    ∀ patched : Map, ∀ key ∈ current.keys,
      ((materializeRemovedFields current patched).get? key).isSome := by
  refine ⟨fun key => ?_, applyMergePatch_again hcurrent hpatch, fun patched key hkey => ?_⟩
  · rw [get?_applyMergePatch, mergeMembers_eq, rfcMerge]
    rfl
  · rw [materializeRemovedFields, get?_orNull, if_pos hkey]
    cases get? key patched <;> rfl

theorem merge_patch_law_removed :
    let current : Map := [("a", .bool true), ("b", .object [("c", .null)])]
    let patch : Map := [("a", .null), ("b", .object [("c", .null), ("d", .bool true)]), ("e", .null)]
    Ordered (.object current) ∧ Ordered (.object patch) ∧
      applyMergePatch (applyMergePatch current patch) patch = applyMergePatch current patch := by
  have hcurrent : Ordered (.object [("a", .bool true), ("b", .object [("c", .null)])]) := by
    simp only [Ordered, OrderedMembers, OrderedMap.Ascending]
    decide
  have hpatch :
      Ordered (.object [("a", .null), ("b", .object [("c", .null), ("d", .bool true)]),
        ("e", .null)]) := by
    simp only [Ordered, OrderedMembers, OrderedMap.Ascending]
    decide
  exact ⟨hcurrent, hpatch, (merge_patch_law hcurrent hpatch).2.1⟩

end TxBase.Server

import TxBase.Dbf.ImageEdits

/-! The null flags of a record: writing the flags of some fields sets exactly the bits
of those fields. -/
namespace TxBase.Dbf
open Lib Json List

def flagMask (bit : Nat) : UInt8 := (1 : UInt8) <<< UInt8.ofNat (bit % 8)

theorem flagMask_toBitVec (bit : Nat) : (flagMask bit).toBitVec = BitVec.twoPow 8 (bit % 8) := by
  have hall : ∀ i : Fin 8, ((1 : UInt8) <<< UInt8.ofNat i).toBitVec = BitVec.twoPow 8 i := by decide
  exact hall ⟨bit % 8, Nat.mod_lt _ (by decide)⟩

theorem and_flagMask (byte : UInt8) (bit : Nat) :
    byte &&& flagMask bit ≠ 0 ↔ byte.toBitVec.getLsbD (bit % 8) = true := by
  have hpow : ∀ i : Fin 8, BitVec.twoPow 8 i ≠ 0#8 := by decide
  rw [ne_eq, ← UInt8.toBitVec_inj, UInt8.toBitVec_and, flagMask_toBitVec, BitVec.and_twoPow]
  split
  · rename_i hset
    simp only [hset, iff_true]
    exact hpow ⟨bit % 8, Nat.mod_lt _ (by decide)⟩
  · rename_i hset
    simp [hset]

theorem getLsbD_flagMask (bit i : Nat) :
    (flagMask bit).toBitVec.getLsbD i = decide (bit % 8 = i) := by
  rw [flagMask_toBitVec, BitVec.getLsbD_twoPow]
  simp [Nat.mod_lt]

theorem flagIsSet_eq (flags : Bytes) (bit : Nat) :
    flagIsSet flags bit =
      ((flags[bit / 8]?).map fun byte => byte.toBitVec.getLsbD (bit % 8)).getD false := by
  unfold flagIsSet
  split
  · rename_i byte hbyte
    rw [hbyte, Option.map_some, Option.getD_some, Bool.eq_iff_iff, decide_eq_true_iff]
    exact and_flagMask byte bit
  · rename_i hbyte
    rw [hbyte]
    rfl

variable {value : Bool} {flags result : Bytes}

theorem flagIsSet_setFlag {bit : Nat} (h : setFlag flags bit value = .ok result) (other : Nat) :
    flagIsSet result other = if other = bit then value else flagIsSet flags other := by
  unfold setFlag at h
  split at h
  · cases h
  · rename_i byte hbyte
    cases h
    have hin := (List.getElem?_eq_some_iff.mp hbyte).1
    rw [flagIsSet_eq, flagIsSet_eq]
    by_cases hsame : bit / 8 = other / 8
    · have hlt : other % 8 < 8 := Nat.mod_lt _ (by decide)
      have hbits : other = bit ↔ bit % 8 = other % 8 := by omega
      rw [← hsame, getElem?_set_self hin, hbyte]
      cases value with
      | false =>
        show ((byte &&& ~~~flagMask bit).toBitVec.getLsbD (other % 8)) = _
        rw [UInt8.toBitVec_and, UInt8.toBitVec_not, BitVec.getLsbD_and, BitVec.getLsbD_not,
          getLsbD_flagMask]
        by_cases heq : other = bit
        · simp [heq]
        · simp [heq, hlt, mt hbits.mpr heq]
      | true =>
        show ((byte ||| flagMask bit).toBitVec.getLsbD (other % 8)) = _
        rw [UInt8.toBitVec_or, BitVec.getLsbD_or, getLsbD_flagMask]
        by_cases heq : other = bit
        · simp [heq]
        · simp [heq, mt hbits.mpr heq]
    · rw [getElem?_set_ne hsame, if_neg (fun heq => hsame (by rw [heq]))]

theorem flagIsSet_setOptionalFlag {bit : Option Nat}
    (h : setOptionalFlag flags bit value = .ok result)
    (other : Nat) :
    flagIsSet result other = if bit = some other then value else flagIsSet flags other := by
  unfold setOptionalFlag at h
  cases bit with
  | none =>
    cases h
    rfl
  | some bit =>
    rw [flagIsSet_setFlag h]
    simp only [Option.some.injEq, eq_comm]

def nullableBit (bits : Option NullFlagBits) : Option Nat := bits.bind NullFlagBits.nullable

def varlengthBit (bits : Option NullFlagBits) : Option Nat := bits.bind NullFlagBits.varlength

variable {values : Map} {field : FieldDescriptor}

theorem flagIsSet_setFieldFlags {bits : Option NullFlagBits}
    (h : setFieldFlags values flags field bits = .ok result) (other : Nat) :
    flagIsSet result other =
      if nullableBit bits = some other then (valueOrNull values field.name).isNull
      else if varlengthBit bits = some other then true else flagIsSet flags other := by
  unfold setFieldFlags at h
  cases bits with
  | none =>
    cases h
    rfl
  | some bits =>
    obtain ⟨middle, hfirst, hsecond⟩ := bind_eq_ok.mp h
    rw [flagIsSet_setOptionalFlag hsecond, flagIsSet_setOptionalFlag hfirst]
    rfl

/-- The bit after those of a field. -/
def nextBitAfter (nextBit : Nat) (field : FieldDescriptor) : Nat :=
  nextBit + (if field.isVariable then 1 else 0) + if field.isNullable then 1 else 0

theorem nullFlagLayoutFrom_cons (hsystem : field.isSystem = false) (nextBit : Nat)
    (rest : List FieldDescriptor) :
    ∃ bits, nullFlagLayoutFrom nextBit (field :: rest) =
        bits :: nullFlagLayoutFrom (nextBitAfter nextBit field) rest ∧
      varlengthBit bits = (if field.isVariable then some nextBit else none) ∧
      nullableBit bits = (if field.isNullable then
        some (nextBit + if field.isVariable then 1 else 0) else none) := by
  rw [nullFlagLayoutFrom, if_neg (by simp [hsystem])]
  refine ⟨_, rfl, ?_, ?_⟩
  · unfold varlengthBit
    cases field.isVariable <;> cases field.isNullable <;> rfl
  · unfold nullableBit
    cases field.isVariable <;> cases field.isNullable <;> rfl

/-- After the flags of the selected fields were written: their bits say what was
written, every other bit is as before. -/
structure FlagsWritten (values : Map) (selected : FieldDescriptor → Bool) (before after : Bytes)
    (nextBit : Nat) (entries : List (FieldDescriptor × Option NullFlagBits)) : Prop where
  below : ∀ bit < nextBit, flagIsSet after bit = flagIsSet before bit
  nullable : ∀ entry ∈ entries, entry.1.isSystem = false → ∀ bit, nullableBit entry.2 = some bit →
    nextBit ≤ bit ∧ flagIsSet after bit =
      if selected entry.1 then (valueOrNull values entry.1.name).isNull else flagIsSet before bit
  varlength : ∀ entry ∈ entries, entry.1.isSystem = false → ∀ bit,
    varlengthBit entry.2 = some bit →
    nextBit ≤ bit ∧ flagIsSet after bit = if selected entry.1 then true else flagIsSet before bit

variable {selected : FieldDescriptor → Bool}

theorem setFlags_written {nextBit : Nat} {fields : List FieldDescriptor}
    (h : setFlags values selected flags (fields.zip (nullFlagLayoutFrom nextBit fields)) =
      .ok result) :
    FlagsWritten values selected flags result nextBit
      (fields.zip (nullFlagLayoutFrom nextBit fields)) := by
  induction fields generalizing nextBit flags with
  | nil =>
    cases h
    exact ⟨fun _ _ => rfl, nofun, nofun⟩
  | cons field rest ih =>
    by_cases hsystem : field.isSystem = true
    · rw [nullFlagLayoutFrom, if_pos hsystem, zip_cons_cons, setFlags,
        if_pos (.inl hsystem)] at h
      rw [nullFlagLayoutFrom, if_pos hsystem, zip_cons_cons]
      have hrest := ih h
      refine ⟨hrest.below, ?_, ?_⟩
      · intro entry hmem hentry
        rcases mem_cons.mp hmem with rfl | hmem
        · rw [hsystem] at hentry
          cases hentry
        · exact hrest.nullable entry hmem hentry
      · intro entry hmem hentry
        rcases mem_cons.mp hmem with rfl | hmem
        · rw [hsystem] at hentry
          cases hentry
        · exact hrest.varlength entry hmem hentry
    · have hfield : field.isSystem = false := by simpa using hsystem
      obtain ⟨bits, hlayout, hvar, hnull⟩ := nullFlagLayoutFrom_cons hfield nextBit rest
      rw [hlayout, zip_cons_cons, setFlags] at h
      rw [hlayout, zip_cons_cons]
      -- the flags of this field come first; the rest of the loop leaves its bits alone
      have hhead : ∃ middle, (∀ bit, flagIsSet middle bit =
            if selected field then
              if nullableBit bits = some bit then (valueOrNull values field.name).isNull
              else if varlengthBit bits = some bit then true else flagIsSet flags bit
            else flagIsSet flags bit) ∧
          setFlags values selected middle
            (rest.zip (nullFlagLayoutFrom (nextBitAfter nextBit field) rest)) = .ok result := by
        split at h
        · rename_i hskip
          have hunselected : selected field = false := by simpa [hsystem] using hskip
          exact ⟨flags, fun bit => by simp [hunselected], h⟩
        · rename_i hkeep
          have hselected : selected field = true := by simpa [hsystem] using hkeep
          obtain ⟨middle, hmiddle, hrest⟩ := bind_eq_ok.mp h
          refine ⟨middle, fun bit => ?_, hrest⟩
          rw [flagIsSet_setFieldFlags hmiddle, if_pos hselected]
      obtain ⟨middle, hmiddle, hrest⟩ := hhead
      have hwritten := ih hrest
      have hbits : ∀ bit, nullableBit bits = some bit ∨ varlengthBit bits = some bit →
          nextBit ≤ bit ∧ bit < nextBitAfter nextBit field := by
        intro bit hbit
        unfold nextBitAfter
        rw [hvar, hnull] at hbit
        cases hv : field.isVariable <;> cases hn : field.isNullable <;>
          simp [hv, hn] at hbit ⊢ <;> omega
      have houter : ∀ bit, bit < nextBit ∨ nextBitAfter nextBit field ≤ bit →
          flagIsSet middle bit = flagIsSet flags bit := by
        intro bit hbit
        have hnot : ¬ (nullableBit bits = some bit ∨ varlengthBit bits = some bit) := by
          intro hin
          have hrange := hbits bit hin
          omega
        rw [not_or] at hnot
        rw [hmiddle bit, if_neg hnot.1, if_neg hnot.2, ite_self]
      refine ⟨?_, ?_, ?_⟩
      · intro bit hbit
        rw [hwritten.below bit (by unfold nextBitAfter; omega)]
        exact houter bit (.inl hbit)
      · intro entry hmem hentry bit hbit
        rcases mem_cons.mp hmem with rfl | hmem
        · have hrange := hbits bit (.inl hbit)
          rw [hwritten.below bit hrange.2, hmiddle bit, if_pos hbit]
          exact ⟨hrange.1, rfl⟩
        · obtain ⟨hle, hflag⟩ := hwritten.nullable entry hmem hentry bit hbit
          rw [hflag, houter bit (.inr hle)]
          exact ⟨by unfold nextBitAfter at hle; omega, rfl⟩
      · intro entry hmem hentry bit hbit
        rcases mem_cons.mp hmem with rfl | hmem
        · have hrange := hbits bit (.inr hbit)
          have hne : nullableBit bits ≠ some bit := by
            dsimp only at hbit
            rw [hvar] at hbit
            rw [hnull]
            cases hv : field.isVariable <;> cases hn : field.isNullable <;> simp_all
          rw [hwritten.below bit hrange.2, hmiddle bit, if_neg hne, if_pos hbit]
          exact ⟨hrange.1, rfl⟩
        · obtain ⟨hle, hflag⟩ := hwritten.varlength entry hmem hentry bit hbit
          rw [hflag, houter bit (.inr hle)]
          exact ⟨by unfold nextBitAfter at hle; omega, rfl⟩

theorem setFlags_others {entries : List (FieldDescriptor × Option NullFlagBits)}
    (h : setFlags values selected flags entries = .ok result) {bit : Nat}
    (hothers : ∀ entry ∈ entries, entry.1.isSystem = false → selected entry.1 = true →
      nullableBit entry.2 ≠ some bit ∧ varlengthBit entry.2 ≠ some bit) :
    flagIsSet result bit = flagIsSet flags bit := by
  induction entries generalizing flags with
  | nil =>
    cases h
    rfl
  | cons entry rest ih =>
    have hrest := (forall_mem_cons.mp hothers).2
    rw [setFlags] at h
    split at h
    · exact ih h hrest
    · rename_i hwritten
      obtain ⟨middle, hmiddle, h⟩ := bind_eq_ok.mp h
      simp only [not_or, Bool.not_eq_true, Bool.not_eq_false] at hwritten
      obtain ⟨hnullable, hvarlength⟩ := hothers entry mem_cons_self hwritten.1 hwritten.2
      rw [ih h hrest, flagIsSet_setFieldFlags hmiddle, if_neg hnullable, if_neg hvarlength]

end TxBase.Dbf

import TxBase.Lib.Outcome

/-! Logs of framed records.  The reader is told by `head` what a log starts with; the records are
applied in order, and a torn frame at the end is left out. -/
namespace TxBase.Lib.Frames
open List
variable {ρ σ ε : Type}

/-- What a log starts with. -/
inductive Head (ε ρ : Type) where
  | torn
  | corrupt (error : ε)
  | record (value : ρ) (size : Nat)

/-- Applies the whole records of a log, and counts their bytes from `offset` on.  The fuel is at
least the number of bytes. -/
def scan (head : Bytes → Head ε ρ) (apply : σ → ρ → Except ε σ) :
    (fuel : Nat) → Bytes → Nat → σ → Except ε (σ × Nat)
  | 0, _, offset, state => .ok (state, offset)
  | fuel + 1, bytes, offset, state =>
      if bytes = [] then .ok (state, offset)
      else
        match head bytes with
        | .torn => .ok (state, offset)
        | .corrupt error => .error error
        | .record value size => do
            let state ← apply state value
            scan head apply fuel (bytes.drop size) (offset + size) state

/-- The bytes are one frame of the record, and every shorter part of them is torn. -/
structure IsFrame (head : Bytes → Head ε ρ) (record : ρ) (bytes : Bytes) : Prop where
  nonempty : bytes ≠ []
  whole : ∀ rest, head (bytes ++ rest) = .record record bytes.length
  torn : ∀ count, count < bytes.length → head (bytes.take count) = .torn

/-- The bytes are the frames of the records, in order. -/
inductive Log (head : Bytes → Head ε ρ) : List ρ → Bytes → Prop
  | nil : Log head [] []
  | cons {record : ρ} {records : List ρ} {bytes rest : Bytes} (hframe : IsFrame head record bytes)
      (hrest : Log head records rest) : Log head (record :: records) (bytes ++ rest)

/-- A log may end like this. -/
def Torn (head : Bytes → Head ε ρ) (tail : Bytes) : Prop := tail = [] ∨ head tail = .torn

variable {head : Bytes → Head ε ρ}

theorem torn_nil : Torn head [] := .inl rfl

variable {bytes : Bytes}

theorem Log.append {left right : List ρ} {more : Bytes} (h : Log head left bytes)
    (hmore : Log head right more) :
    Log head (left ++ right) (bytes ++ more) := by
  induction h with
  | nil => exact hmore
  | cons hframe hrest ih =>
    rw [append_assoc]
    exact .cons hframe ih

theorem Log.single {record : ρ} (h : IsFrame head record bytes) : Log head [record] bytes := by
  have hlog := Log.cons h .nil
  rwa [append_nil] at hlog

variable {records : List ρ}

theorem Log.take (h : Log head records bytes) (count : Nat) :
    ∃ whole tail kept, bytes.take count = whole ++ tail ∧ Log head (records.take kept) whole ∧
      Torn head tail := by
  induction h generalizing count with
  | nil => exact ⟨[], [], 0, by simp, .nil, torn_nil⟩
  | @cons record records bytes rest hframe hrest ih =>
    by_cases hcount : count < bytes.length
    · refine ⟨[], bytes.take count, 0, ?_, .nil, .inr (hframe.torn count hcount)⟩
      rw [nil_append, take_append_of_le_length hcount.le]
    · obtain ⟨whole, tail, kept, heq, hlog, htorn⟩ := ih (count - bytes.length)
      refine ⟨bytes ++ whole, tail, kept + 1, ?_, .cons hframe hlog, htorn⟩
      rw [take_append, heq, take_of_length_le (by omega), append_assoc]

theorem Log.scan {apply : σ → ρ → Except ε σ} {tail : Bytes} (h : Log head records bytes)
    (htail : Torn head tail)
    (offset : Nat) (state : σ) {fuel : Nat} (hfuel : (bytes ++ tail).length ≤ fuel) :
    Frames.scan head apply fuel (bytes ++ tail) offset state =
      (records.foldlM apply state).map fun last => (last, offset + bytes.length) := by
  induction h generalizing fuel offset state with
  | nil =>
    rw [nil_append]
    cases fuel with
    | zero => rfl
    | succ fuel =>
      rw [Frames.scan]
      by_cases hempty : tail = []
      · rw [if_pos hempty]
        rfl
      · rw [if_neg hempty, htail.resolve_left hempty]
        rfl
  | @cons record records bytes rest hframe hrest ih =>
    have hlength := length_pos_iff.mpr hframe.nonempty
    simp only [length_append] at hfuel
    obtain ⟨fuel, rfl⟩ : ∃ less, fuel = less + 1 := ⟨fuel - 1, by omega⟩
    rw [append_assoc, Frames.scan, if_neg (by simp [hframe.nonempty]), hframe.whole,
      foldlM_cons, length_append]
    dsimp only
    cases happly : apply state record with
    | error error => rfl
    | ok next =>
      show Frames.scan head apply fuel ((bytes ++ (rest ++ tail)).drop bytes.length) _ next = _
      rw [drop_left, ih (offset + bytes.length) next (by simp only [length_append]; omega),
        Nat.add_assoc]
      rfl

end TxBase.Lib.Frames

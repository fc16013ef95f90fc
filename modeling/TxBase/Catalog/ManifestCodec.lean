import TxBase.Catalog.Recovery

/-! A plain encoding of manifests, with which the journal runs on concrete files; `serde_json`
itself stays a parameter of the model. -/
namespace TxBase.Catalog.ManifestSerde
open Lib

def putNat (value : Nat) : Bytes := List.replicate value 1 ++ [0]

def takeNat : Bytes → Option (Nat × Bytes)
  | [] => none
  | byte :: rest =>
      if byte = 0 then some (0, rest) else (takeNat rest).map fun found => (found.1 + 1, found.2)

theorem takeNat_putNat (value : Nat) (rest : Bytes) :
    takeNat (putNat value ++ rest) = some (value, rest) := by
  induction value with
  | zero => rfl
  | succ value ih =>
    show (if (1 : UInt8) = 0 then _ else (takeNat (putNat value ++ rest)).map _) = _
    rw [ih]
    rfl

def putText (text : String) : Bytes := putNat (utf8 text).length ++ utf8 text

def takeText (bytes : Bytes) : Option (String × Bytes) := do
  let (length, rest) ← takeNat bytes
  let text ← fromUtf8? (rest.take length)
  some (text, rest.drop length)

theorem takeText_putText (text : String) (rest : Bytes) :
    takeText (putText text ++ rest) = some (text, rest) := by
  unfold takeText putText
  rw [List.append_assoc, takeNat_putNat]
  simp [fromUtf8?_utf8]

def putOption : Option String → Bytes
  | none => putNat 0
  | some text => putNat 1 ++ putText text

def takeOption (bytes : Bytes) : Option (Option String × Bytes) := do
  let (present, rest) ← takeNat bytes
  if present = 0 then some (none, rest)
  else do
    let (text, rest) ← takeText rest
    some (some text, rest)

theorem takeOption_putOption (option : Option String) (rest : Bytes) :
    takeOption (putOption option ++ rest) = some (option, rest) := by
  unfold takeOption putOption
  cases option with
  | none => simp [takeNat_putNat]
  | some text => simp [List.append_assoc, takeNat_putNat, takeText_putText]

def putChange (change : ManifestChange) : Bytes :=
  putText change.target ++ putOption change.before ++ putOption change.after

def takeChange (bytes : Bytes) : Option (ManifestChange × Bytes) := do
  let (target, rest) ← takeText bytes
  let (before, rest) ← takeOption rest
  let (after, rest) ← takeOption rest
  some (⟨target, before, after⟩, rest)

theorem takeChange_putChange (change : ManifestChange) (rest : Bytes) :
    takeChange (putChange change ++ rest) = some (change, rest) := by
  simp [takeChange, putChange, List.append_assoc, takeText_putText, takeOption_putOption]

def takeChanges : Nat → Bytes → Option (List ManifestChange)
  | 0, _ => some []
  | count + 1, bytes => do
      let (change, rest) ← takeChange bytes
      let changes ← takeChanges count rest
      some (change :: changes)

theorem takeChanges_flatMap (changes : List ManifestChange) :
    takeChanges changes.length (changes.flatMap putChange) = some changes := by
  induction changes with
  | nil => rfl
  | cons change rest ih => simp [takeChanges, takeChange_putChange, ih]

def putManifest (manifest : Manifest) : Bytes :=
  putNat (match manifest.phase with | .prepared => 0 | .committed => 1) ++
    putNat manifest.changes.length ++ manifest.changes.flatMap putChange

def takeManifest (bytes : Bytes) : Option Manifest := do
  let (phase, rest) ← takeNat bytes
  let (count, rest) ← takeNat rest
  let changes ← takeChanges count rest
  some ⟨if phase = 0 then .prepared else .committed, changes⟩

theorem takeManifest_putManifest (manifest : Manifest) :
    takeManifest (putManifest manifest) = some manifest := by
  obtain ⟨phase, changes⟩ := manifest
  cases phase <;> simp [takeManifest, putManifest, List.append_assoc, takeNat_putNat,
    takeChanges_flatMap]

@[reducible] def plain : ManifestSerde where
  toVec manifest := .ok (putManifest manifest)
  fromSlice bytes :=
    match takeManifest bytes with
    | some manifest => .ok manifest
    | none => .error "expected a manifest"

theorem plain_roundTrips : @RoundTrips plain := by
  intro manifest
  refine ⟨putManifest manifest, rfl, ?_⟩
  show (match takeManifest (putManifest manifest) with
    | some manifest => Except.ok manifest
    | none => Except.error "expected a manifest") = _
  rw [takeManifest_putManifest]

end TxBase.Catalog.ManifestSerde

import TxBase.Lib.Text

/-! File names and paths as `std::path` splits them: the stem and the extension of a name
stand on the two sides of its last dot, unless that dot is its first character. -/
namespace TxBase.Lib.Paths

/-- The text before and behind the last separator. -/
def splitLast (separator : Char) : List Char → Option (List Char × List Char)
  | [] => none
  | c :: rest =>
      match splitLast separator rest with
      | some (before, behind) => some (c :: before, behind)
      | none => if c = separator then some ([], rest) else none

def splitName (name : List Char) : List Char × Option (List Char) :=
  if name = ['.', '.'] then (name, none)
  else
    match splitLast '.' name with
    | none | some ([], _) => (name, none)
    | some (stem, extension) => (stem, some extension)

def fileStem (name : String) : String := String.ofList (splitName name.toList).1

def extension (name : String) : Option String := (splitName name.toList).2.map String.ofList

/-- The directory of a path, with its separator, and the file name. -/
def splitPath (path : String) : List Char × List Char :=
  match splitLast '/' path.toList with
  | none => ([], path.toList)
  | some (directory, name) => (directory ++ ['/'], name)

def withExtension (path extension : String) : String :=
  let (directory, name) := splitPath path
  String.ofList (directory ++ (splitName name).1 ++ '.' :: extension.toList)

example : withExtension "data/a.b.dbf" "txschema.json" = "data/a.b.txschema.json" := by decide

end TxBase.Lib.Paths

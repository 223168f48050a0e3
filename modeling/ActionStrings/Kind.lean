import ActionStrings.Encoding

namespace ActionStrings

structure FlagNames where
  title : String
  labels : List String

-- The labels of the bits that are set; a word without any is shown as zero.
def FlagNames.describe {w : Nat} (names : FlagNames) (flags : Flags w) : String :=
  let present := names.labels.zipIdx.filterMap fun row =>
    if flags.bits.getLsbD row.2 then some row.1 else none
  let body := if present.isEmpty then "0x0" else " | ".intercalate present
  s!"{names.title}({body})"

inductive Kind
  | file
  | socket
  | property
deriving DecidableEq

namespace Kind

def ofTitle? : String → Option Kind
  | "file" => some .file
  | "socket" => some .socket
  | "property" => some .property
  | _ => none

def vocabulary : Kind → Vocabulary
  | .file => .ofNames "file"
      [("read","Read"),("write","Write"),("execute","Execute"),("delete","Delete"),("readlink","ReadLink")]
  | .socket => .ofNames "socket"
      [("connect","Connect"),("listen","Listen"),("accept","Accept"),("resolve","Resolve")]
  | .property => .ofNames "property" [("read","Read"),("write","Write")]

def flagNames? : Kind → Option FlagNames
  | .file => some ⟨"FileFlags",["READ","WRITE","EXECUTE","DELETE","READLINK"]⟩
  | _ => none

end Kind

end ActionStrings

import ShiftReduce.OrderedMap

/-! # Files

A run of the command line reads one file and writes one. How paths lead to files is left open
(`FileSystem`), and so is what a file holds: a text, or bytes of which only some encode a text
(`Content`). The smallest file system is one directory without directories in it (`Directory.system`):
a path is followed name by name, and a path that leaves the directory finds directories but no files. -/

namespace ShiftReduce.CommandLine

/-- Why a file cannot be read or written. -/
inductive FileError where
  /-- there is no such file -/
  | notFound
  /-- a file stands where a directory is needed -/
  | notDirectory
  /-- a directory stands where a file is needed -/
  | isDirectory
  /-- a name is longer than names can be -/
  | nameTooLong
  /-- the file does not hold text -/
  | notText
  /-- another error of the system -/
  | system (code : Nat) (description : String)
  deriving DecidableEq

/-- The message of an error. -/
def FileError.message : FileError → String
  | .notFound => "No such file or directory (os error 2)"
  | .notDirectory => "Not a directory (os error 20)"
  | .isDirectory => "Is a directory (os error 21)"
  | .nameTooLong => "File name too long (os error 36)"
  | .notText => "stream did not contain valid UTF-8"
  | .system code description => description ++ " (os error " ++ toString code ++ ")"

/-! ## Contents -/

/-- The text that some bytes encode is the one that they are the code of. -/
theorem fromUTF8?_eq_some_iff {bytes : ByteArray} {text : String} :
    String.fromUTF8? bytes = some text ↔ bytes = text.toUTF8 := by
  unfold String.fromUTF8?
  split
  · next h =>
    rw [Option.some.injEq]
    constructor
    · rintro rfl
      rfl
    · rintro rfl
      rfl
  · next h =>
    simp only [reduceCtorEq, false_iff]
    rintro rfl
    exact h text.isValidUTF8

/-- What a file can hold: each text, and perhaps something that is no text. -/
class Content (α : Type) where
  /-- what a file holds after a text was written to it -/
  ofText : String → α
  /-- the text that a file holds, if it is a text -/
  text? : α → Option String
  /-- a file holds a text just as it was written -/
  text?_eq_some_iff {content : α} {text : String} : text? content = some text ↔ content = ofText text

/-- Files that hold texts. -/
instance : Content String where
  ofText text := text
  text? := some
  text?_eq_some_iff := Option.some_inj

/-- Files that hold bytes. -/
instance : Content ByteArray where
  ofText := String.toUTF8
  text? := String.fromUTF8?
  text?_eq_some_iff := fromUTF8?_eq_some_iff

/-! ## Paths to files -/

/-- What the files of a system hold. Files are told apart by `ν`, not by their paths, of which they may have
several. -/
abbrev Files (ν α : Type) := OrderedMap ν α

/-- How paths lead to files. -/
class FileSystem (ν α : Type) [DecidableEq ν] where
  /-- the file that can be read at a path -/
  toRead (files : Files ν α) (path : String) : Except FileError ν
  /-- the file that can be written at a path, which is there or can be made -/
  toWrite (files : Files ν α) (path : String) : Except FileError ν
  /-- what is read at a path is what is written there -/
  toWrite_eq {files : Files ν α} {path : String} {file file' : ν} (h : toRead files path = .ok file)
    (h' : toWrite files path = .ok file') : file' = file
  /-- to write a file does not change where its path leads -/
  toWrite_insert {files : Files ν α} {path : String} {file : ν} (h : toWrite files path = .ok file)
    (content : α) : toWrite (files.insert file content) path = .ok file

namespace FileSystem

variable {ν α : Type} [DecidableEq ν] [FileSystem ν α]

/-- What the file at a path holds. -/
def read (files : Files ν α) (path : String) : Except FileError α :=
  match toRead files path with
  | .error e => .error e
  | .ok file =>
    match files.get? file with
    | none => .error .notFound
    | some content => .ok content

/-- The files after a text was written to the one at a path. -/
def write [Content α] (files : Files ν α) (path text : String) : Except FileError (Files ν α) :=
  match toWrite files path with
  | .error e => .error e
  | .ok file => .ok (files.insert file (Content.ofText text))

end FileSystem

/-! ## One directory -/

/-- The files of a directory by name. -/
abbrev Directory (α : Type := String) := Files String α

/-- The parts of a path between its slashes. -/
def pathParts (path : String) : List String := (path.toList.splitOn '/').map String.ofList

namespace Directory

variable {α : Type}

/-- Where a path leads. -/
inductive Place where
  /-- to a directory -/
  | directory
  /-- to a file or to a name that is free for one; a slash may stand behind the name -/
  | entry (name : String) (slash : Bool)
  deriving DecidableEq

/-- How many bytes a name may have. -/
def nameLimit : Nat := 255

/-- How many bytes a path may have. -/
def pathLimit : Nat := 4095

/-- Follows the parts of a path between its slashes. `inside` tells whether they are taken from the
working directory or from another one. -/
def follow (d : Directory α) (inside : Bool) : List String → Except FileError Place
  | [] => .ok .directory
  | part :: rest =>
    if part = "" ∨ part = "." then d.follow inside rest
    else if part = ".." then d.follow false rest
    else
      let last := rest.all (· = "")
      if inside ∧ last then .ok (.entry part (rest ≠ []))
      else if nameLimit < part.utf8ByteSize then .error .nameTooLong
      else if inside ∧ (d.get? part).isSome then .error .notDirectory
      else .error .notFound

/-- Follows a path. -/
def resolve (d : Directory α) (path : String) : Except FileError Place :=
  if pathLimit < path.utf8ByteSize then .error .nameTooLong
  else d.follow (path.toList.head? ≠ some '/') (pathParts path)

/-- The name of the file that can be read at a path. -/
def toRead (d : Directory α) (path : String) : Except FileError String :=
  match d.resolve path with
  | .error e => .error e
  | .ok .directory => .error .isDirectory
  | .ok (.entry name slash) =>
    if nameLimit < name.utf8ByteSize then .error .nameTooLong
    else if (d.get? name).isSome then
      if slash then .error .notDirectory else .ok name
    else .error .notFound

/-- The name of the file that can be written at a path. -/
def toWrite (d : Directory α) (path : String) : Except FileError String :=
  match d.resolve path with
  | .error e => .error e
  | .ok .directory => .error .isDirectory
  | .ok (.entry name slash) =>
    if slash then .error .isDirectory
    else if nameLimit < name.utf8ByteSize then .error .nameTooLong
    else .ok name

/-- A path leads to a name no matter which files there are. -/
theorem follow_eq_entry {d d' : Directory α} {inside : Bool} {parts : List String} {name : String}
    {slash : Bool} (h : d.follow inside parts = .ok (.entry name slash)) :
    d'.follow inside parts = .ok (.entry name slash) := by
  fun_induction d.follow inside parts with
  | case1 => cases h
  | case2 inside part rest hstay ih =>
    rw [follow, if_pos hstay]
    exact ih h
  | case3 inside rest hstay ih =>
    rw [follow, if_neg hstay, if_pos rfl]
    exact ih h
  | case4 inside part rest hstay hleave last hlast =>
    rw [follow, if_neg hstay, if_neg hleave]
    rwa [if_pos hlast]
  -- all other outcomes are errors
  | case5 => cases h
  | case6 => cases h
  | case7 => cases h

/-- A file can be written when its path leads to a short enough name, without a slash behind it. -/
theorem toWrite_eq_ok {d : Directory α} {path name : String} : d.toWrite path = .ok name ↔
    d.resolve path = .ok (.entry name false) ∧ name.utf8ByteSize ≤ nameLimit := by
  unfold toWrite
  grind

/-- A file can be read when its path leads to it in the same way and it is there. -/
theorem toRead_eq_ok {d : Directory α} {path name : String} : d.toRead path = .ok name ↔
    d.resolve path = .ok (.entry name false) ∧ name.utf8ByteSize ≤ nameLimit ∧
      (d.get? name).isSome := by
  unfold toRead
  grind

/-- A directory as a file system. -/
instance system : FileSystem String α where
  toRead := toRead
  toWrite := toWrite
  toWrite_eq h h' := by
    have hplace := (toRead_eq_ok.mp h).1.symm.trans (toWrite_eq_ok.mp h').1
    simpa using hplace.symm
  toWrite_insert h content := by
    obtain ⟨hplace, hname⟩ := toWrite_eq_ok.mp h
    refine toWrite_eq_ok.mpr ⟨?_, hname⟩
    unfold resolve at hplace ⊢
    split at hplace
    · cases hplace
    · next hpath =>
      rw [if_neg hpath]
      exact follow_eq_entry hplace

end Directory

end ShiftReduce.CommandLine

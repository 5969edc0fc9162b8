/-!
# Files

What a file name leads to. `FileTree.find` follows a name step by step the way an operating system
does: `.` stays, `..` goes up, repeated slashes count once, a slash at the end asks for a
directory, and every step starts at a directory. Names and their steps have a greatest length in
bytes.

A tree knows the files below the working directory, each under the steps that lead to it. Of the
rest it knows what every system has: the directories above the working one, the root directory
with `/dev` and `/tmp` in it, and the device `/dev/null`, which is empty to read. The root
directory is above itself.
-/

namespace Scheme

/-- What a file name leads to. -/
inductive FileEntry where
  | file (bytes : ByteArray)
  | directory
  /-- What can be read like a file and is none. -/
  | device (bytes : ByteArray)
  | absent
  /-- Some step of the name goes through what is no directory. -/
  | throughFile
  /-- The name or one of its steps is too long. -/
  | tooLong
  /-- Nobody has looked yet. -/
  | unread

/-- The files below the working directory, each under the steps that lead to it. -/
structure FileTree where
  files : List (List String × ByteArray)

/-- A directory on the way. -/
inductive Location where
  /-- Below the working directory. -/
  | within (place : List String)
  /-- Above the working directory. -/
  | above
  /-- Below the root directory. -/
  | fromRoot (place : List String)

/-- The directory that holds this one. -/
def Location.parent : Location → Location
  | within [] => above
  | within place => within place.dropLast
  | above => above
  | fromRoot place => fromRoot place.dropLast

namespace FileTree

/-- A step has at most this many bytes. -/
def longestStep : Nat := 255

/-- A name has at most this many bytes. -/
def longestName : Nat := 4095

/-- The parts of a name between its slashes. -/
def parts (name : String) : List String := (name.splitToList (· == '/')).filter (· != "")

/-- The steps of a name; a slash at the end counts as a step that stays. -/
def steps (name : String) : List String :=
  if name.toList.getLast? == some '/' then parts name ++ ["."] else parts name

/-- The tree with these files, each under its name relative to the working directory. -/
def ofFiles (files : List (String × ByteArray)) : FileTree :=
  ⟨files.map fun f => ((parts f.1).filter (· != "."), f.2)⟩

/-- What is at a place below the working directory, which is a directory if a file lies below
it. -/
def entryWithin (t : FileTree) (place : List String) : FileEntry :=
  if t.files.any fun f => place.isPrefixOf f.1 && place.length < f.1.length then .directory
  else
    match t.files.find? (·.1 == place) with
    | some f => .file f.2
    | none => .absent

/-- What every system has at a place below its root. -/
def entryFromRoot (place : List String) : FileEntry :=
  if place = ["dev"] ∨ place = ["tmp"] then .directory
  else if place = ["dev", "null"] then .device ByteArray.empty
  else .absent

/-- What a step leads to, and where that is if it is a directory. -/
def enter (t : FileTree) (step : String) : Location → FileEntry × Location
  | .within place => (t.entryWithin (place ++ [step]), .within (place ++ [step]))
  | .above => (.absent, .above)
  | .fromRoot place => (entryFromRoot (place ++ [step]), .fromRoot (place ++ [step]))

/-- Where the steps lead from a directory. -/
def follow (t : FileTree) (l : Location) : List String → FileEntry
  | [] => .directory
  | step :: rest =>
    if step = "." then follow t l rest
    else if step = ".." then follow t l.parent rest
    else if longestStep < step.utf8ByteSize then .tooLong
    else
      match t.enter step l with
      | (.directory, next) => follow t next rest
      | (.absent, _) => .absent
      | (entry, _) => if rest.isEmpty then entry else .throughFile

/-- What a name leads to. -/
def find (t : FileTree) (name : String) : FileEntry :=
  let cs := name.toList
  if cs.isEmpty || cs.contains '\x00' then .absent
  else if longestName < name.utf8ByteSize then .tooLong
  else if cs.head? == some '/' then t.follow (.fromRoot []) (steps name)
  else t.follow (.within []) (steps name)

end FileTree

end Scheme

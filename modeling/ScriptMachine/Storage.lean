import ScriptMachine.Text

namespace ScriptMachine

/-- Why nothing could be read from a path that has been opened. -/
inductive ReadError where
  | isDirectory
deriving DecidableEq, Inhabited

def ReadError.message : ReadError → Text
  | isDirectory => "basic_filebuf::underflow error reading the file: Is a directory"

structure Storage where
  files : List (Text × Text) := []
  /-- The directories besides the working directory, each with a slash at its end. -/
  directories : List Text := []
deriving DecidableEq, Inhabited

namespace Storage

def maxPath : Nat := 4095

def maxName : Nat := 255

def segments : Text → List Text
  | [] => [[]]
  | b :: rest =>
    match segments rest with
    | [] => [[b]]
    | first :: more => if b = 0x2f then [] :: first :: more else (b :: first) :: more

def here : Text := "."

def parent : Text := ".."

/-- The directory that the parts before a file name lead to. -/
def directory (parts : List Text) : Text :=
  let root : Text := if parts.head? = some [] then "/" else []
  root ++ (parts.filter fun part => part ≠ [] ∧ part ≠ here).flatMap (· ++ [0x2f])

def withDirectory (s : Storage) (parts : List Text) : Storage :=
  let place := directory parts
  if place = [] ∨ place ∈ s.directories then s
  else { s with directories := place :: s.directories }

/-- Takes the directory of a path to be there. -/
def withDirectoryOf (s : Storage) (path : Text) : Storage :=
  s.withDirectory (segments path.untilZero).dropLast

/-- The working directory, those above it and the root are always there. -/
def isDirectory (s : Storage) (path : Text) : Bool :=
  let path := path.untilZero
  let parts := segments path
  path ≠ [] ∧ path.length ≤ maxPath ∧
    ((∀ part ∈ parts, part = [] ∨ part = here ∨ part = parent) ∨ directory parts ∈ s.directories)

/-- The one spelling of a path under which its file is kept, if it can name a file. -/
def resolve? (s : Storage) (path : Text) : Option Text :=
  let path := path.untilZero
  let parts := segments path
  let name := parts.getLastD []
  let place := directory parts.dropLast
  if path.length ≤ maxPath ∧ name ≠ [] ∧ name ≠ here ∧ name ≠ parent ∧ name.length ≤ maxName ∧
      directory parts ∉ s.directories ∧ (place = [] ∨ place ∈ s.directories) then some (place ++ name)
  else none

/-- A path that has been opened for reading. Its content is read past the stream, whose own record
of a failure stays as it was when the path was opened. -/
structure Source where
  content : Except ReadError Text
  bad : Bool := false

/-- A directory can be opened like a file, but nothing can be read from it. -/
def open? (s : Storage) (path : Text) : Option Source :=
  if s.isDirectory path then some { content := .error .isDirectory }
  else (s.resolve? path).bind fun name => (s.files.lookup name).map fun content =>
    { content := .ok content }

theorem open?_of_isDirectory {s : Storage} {path : Text} (h : s.isDirectory path) :
    s.open? path = some { content := .error .isDirectory } := if_pos h

theorem content_of_open? {s : Storage} {path : Text} {source : Source}
    (hfile : ¬s.isDirectory path) (h : s.open? path = some source) :
    ∃ content, source = { content := .ok content } := by
  rw [open?, if_neg hfile, Option.bind_eq_some_iff] at h
  obtain ⟨name, -, h⟩ := h
  obtain ⟨content, -, rfl⟩ := Option.map_eq_some_iff.1 h
  exact ⟨content, rfl⟩

/-- The text that a copy of everything in the source ends up with; it ends without an error where
reading fails. -/
def Source.copy? (source : Source) : Option Text :=
  if source.bad then none else some (source.content.toOption.getD [])

def read? (s : Storage) (path : Text) : Option Text := (s.open? path).bind Source.copy?

def put (name content : Text) : List (Text × Text) → List (Text × Text)
  | [] => [(name, content)]
  | (other, old) :: rest =>
    if other = name then (other, content) :: rest else (other, old) :: put name content rest

def write? (s : Storage) (path content : Text) : Option Storage := do
  let name ← s.resolve? path
  return { s with files := put name content s.files }

def append? (s : Storage) (path content : Text) : Option Storage := do
  let name ← s.resolve? path
  return { s with files := put name ((s.files.lookup name).getD [] ++ content) s.files }

end Storage
end ScriptMachine

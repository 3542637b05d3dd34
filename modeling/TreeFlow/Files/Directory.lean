import TreeFlow.Files
/-
A directory of files that is a value.

Files and folders have locations: lists of names, from the directory inwards.  A location in a text
is walked name by name: an empty name and `.` stay, `..` goes back, and any other name goes into a
folder.  Nothing outside of the directory can be named.
-/

namespace TreeFlow

structure Directory where
  files : SortedMap (List String) (List UInt8)
  folders : List (List String)
deriving DecidableEq, Inhabited

namespace Directory

def empty : Directory := ⟨.empty, []⟩

def isFile (d : Directory) (location : List String) : Bool := d.files.contains location

def isFolder (d : Directory) (location : List String) : Bool :=
  location.isEmpty || d.folders.contains location

/-! ## Locations -/

def namesOf (location : String) : List String :=
  (location.toList.splitOnP fun c => c = '/').map String.ofList

/-- Whether a text can be a location in the directory: it is short enough, as are its names, it
holds no NUL, and it does not start at the root of all files. -/
def admits (location : String) : Bool :=
  location.utf8ByteSize < 4096 && !location.toList.contains '\x00'
    && location.toList.head? != some '/'
    && (namesOf location).all fun name => name.utf8ByteSize < 256

/-- Where a name leads from a folder. -/
def target? (folder : List String) (name : String) : Option (List String) :=
  if name = "" || name = "." then some folder
  else if name = ".." then if folder.isEmpty then none else some folder.dropLast
  else some (folder ++ [name])

/-- Goes from a folder into one that is there. -/
def enter (d : Directory) (folder : List String) (name : String) : Option (List String) :=
  (target? folder name).filter d.isFolder

/-- Makes a folder unless it is there. -/
def makeFolder (d : Directory) (location : List String) : Option Directory :=
  if d.isFolder location then some d
  else if d.isFile location then none
  else some { d with folders := location :: d.folders }

/-- Goes from a folder into one that is made if need be. -/
def enterMaking (state : Directory × List String) (name : String) :
    Option (Directory × List String) := do
  let next ← target? state.2 name
  let d ← state.1.makeFolder next
  return (d, next)

/-- The last name of a location, if it can name a file, and the names before it. -/
def split? (location : String) : Option (List String × String) := do
  let names := namesOf location
  let name ← names.getLast?
  if name = "" || name = "." || name = ".." then none else some (names.dropLast, name)

/-! ## Reading and writing -/

def read (d : Directory) (location : String) : Option (List UInt8) := do
  if !admits location then none
  let (folders, name) ← split? location
  let folder ← folders.foldlM d.enter []
  d.files.get? (folder ++ [name])

/-- The directory with the folders above a location, and the location itself, if a file can be
there. -/
def prepare (d : Directory) (location : String) : Option (Directory × List String) := do
  if !admits location then none
  let (folders, name) ← split? location
  let (d, folder) ← folders.foldlM enterMaking (d, [])
  if d.isFolder (folder ++ [name]) then none else some (d, folder ++ [name])

def write (d : Directory) (location : String) (octets : List UInt8) : Option Directory := do
  let (d, place) ← d.prepare location
  return { d with files := d.files.insert place octets }

/-- The directory of some files; one that cannot be there is left out. -/
def ofFiles (files : List (String × List UInt8)) : Directory :=
  files.foldl (fun d (location, octets) => (d.write location octets).getD d) empty

def locationText (location : List String) : String := "/".intercalate location

/-- Access to a directory that is the state of a computation. -/
def access : FileAccess (StateM Directory) where
  read location := fun d => (d.read location, d)
  write location text := fun d =>
    match d.write location (Text.octetsOf text) with
    | some d => (true, d)
    | none => (false, d)

end Directory
end TreeFlow

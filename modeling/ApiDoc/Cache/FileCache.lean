import ApiDoc.File

/-!
# Files read in earlier builds

A file cache keeps the files of one set as they were read, by path. A source whose content has the
hash of its cached file need not be read again. An entry is fresh until it has been saved.
-/

namespace ApiDoc

/-- A cached file; `fresh` means that it is not saved yet. -/
structure CachedFile where
  file : File
  fresh : Bool := false
deriving DecidableEq, Inhabited

/-- The cached files of one set, by path. -/
structure FileCache where
  entries : NameMap CachedFile := .empty
deriving DecidableEq, Inhabited

namespace FileCache

def get? (c : FileCache) (path : String) : Option File := (c.entries.get? path).map CachedFile.file

/-- The cached file of a path if its content has the given hash. With `force` nothing counts as
unchanged. -/
def unchanged? (c : FileCache) (path hash : String) (force : Bool) : Option File :=
  if force then none else (c.get? path).filter fun f => f.hash = hash

/-- The cache with a file that was just read. -/
def insert (c : FileCache) (f : File) : FileCache := ⟨c.entries.insert f.path ⟨f, true⟩⟩

/-- The cache with a file that was loaded. -/
def insertSaved (c : FileCache) (f : File) : FileCache := ⟨c.entries.insert f.path ⟨f, false⟩⟩

def erase (c : FileCache) (path : String) : FileCache := ⟨c.entries.erase path⟩

def paths (c : FileCache) : List String := c.entries.keys

def size (c : FileCache) : Nat := c.entries.size

/-- The paths that are not among the present ones. -/
def stale (c : FileCache) (present : List String) : List String :=
  c.paths.filter fun p => !present.contains p

def retain (c : FileCache) (present : List String) : FileCache :=
  ⟨c.entries.filter fun p _ => present.contains p⟩

def allSaved (c : FileCache) : FileCache := ⟨c.entries.map fun e => { e with fresh := false }⟩

end FileCache

end ApiDoc

import EtlFlow.Files.Tree
import EtlFlow.Storage.Location
/-!
# Object stores

A store takes the content of an object and later tells whether it has it.  `Store.memory` keeps
objects by URI and can be told to fail; `Store.local` keeps each object in a file below a root
directory.
-/

namespace EtlFlow.Storage

/-- Why a store does not take an object. -/
inductive StoreError where
  | transient (detail : String)
  | rejected (detail : String)
  | io (cause : Files.IoError)
  deriving DecidableEq, Repr

namespace StoreError

/-- Another attempt may succeed. -/
def isTransient : StoreError → Bool
  | .transient _ => true
  | _ => false

/-- The wording of an error. -/
def message : StoreError → String
  | .transient d => "transient object store failure: " ++ d
  | .rejected d => "object store rejected the request: " ++ d
  | .io cause => "I/O error: " ++ cause.message

end StoreError

/-- The operations of a store with states `σ`. -/
structure Store (σ : Type) where
  put : ByteArray → Location → σ → Except StoreError Unit × σ
  holds : σ → Location → Bool
  /-- Where the store is, in words. -/
  place : String
  /-- The files that uploads are read from. -/
  files : σ → Files.Tree

/-- Puts the file at a path into a store. -/
def Store.putFile {σ : Type} (store : Store σ) (path : String) (dest : Location) (s : σ) :
    Except StoreError Unit × σ :=
  match (store.files s).read path with
  | .ok content => store.put content dest s
  | .error e => (.error (.io e), s)

/-! ### In memory -/

/-- Objects in memory, in the order of their URIs. -/
structure Memory where
  objects : List (String × ByteArray) := []
  /-- How many of the next attempts fail. -/
  failing : Nat := 0
  /-- How often a put was attempted. -/
  attempts : Nat := 0
  files : Files.Tree := {}

namespace Memory

/-- The objects with one more, or with new content for one. -/
def insert (uri : String) (content : ByteArray) :
    List (String × ByteArray) → List (String × ByteArray)
  | [] => [(uri, content)]
  | p :: ps =>
    if p.1 = uri then (uri, content) :: ps
    else if uri < p.1 then (uri, content) :: p :: ps
    else p :: insert uri content ps

/-- The content of an object. -/
def content? (m : Memory) (uri : String) : Option ByteArray :=
  (m.objects.find? (·.1 == uri)).map (·.2)

/-- Puts an object into memory. -/
def put (content : ByteArray) (dest : Location) (m : Memory) : Except StoreError Unit × Memory :=
  let m := { m with attempts := m.attempts + 1 }
  match m.failing with
  | n + 1 => (.error (.transient ("throttled writing " ++ dest.uri)), { m with failing := n })
  | 0 => (.ok (), { m with objects := insert dest.uri content m.objects })

end Memory

/-- The store in memory. -/
def Store.memory : Store Memory where
  put := Memory.put
  holds m l := (m.content? l.uri).isSome
  place := "memory"
  files := Memory.files

/-! ### Below a directory -/

/-- The path of an object below a root directory. -/
def localPath (root : String) (l : Location) : String :=
  Files.Path.join (Files.Path.join root l.bucket) l.key

/-- Writes an object below a root directory. -/
def putLocal (root : String) (content : ByteArray) (dest : Location) (t : Files.Tree) :
    Except StoreError Unit × Files.Tree :=
  if dest.isDirectory then
    (.error (.rejected ("cannot write bytes to directory " ++ dest.uri)), t)
  else
    let path := localPath root dest
    match t.makeParents path with
    | .error e => (.error (.io e), t)
    | .ok t =>
      match t.write path content with
      | .error e => (.error (.io e), t)
      | .ok t => (.ok (), t)

/-- The store below a root directory. -/
def Store.local (root : String) : Store Files.Tree where
  put := putLocal root
  holds t l := t.has (localPath root l)
  place := root
  files := id

end EtlFlow.Storage

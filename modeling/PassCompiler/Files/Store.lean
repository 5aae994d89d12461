import PassCompiler.Files.Path

/-! A store of files and directories without links. Locations are lists of names from the root
downwards; a path leads to a location segment by segment, and every step has to start from a
directory. -/
namespace PassCompiler

inductive FileError where
  | notFound
  | alreadyExists
  | notDirectory
  | isDirectory
  /-- A name or a path is longer than the system allows. -/
  | nameTooLong
  /-- The path holds a zero byte, which ends a path for the system. -/
  | zeroByte
  /-- The bytes are no UTF-8 text. -/
  | notText
  | storageFull
  | inputOutput
  deriving DecidableEq, Repr

namespace FileError

def words : FileError → Bytes
  | notFound => bytes "No such file or directory"
  | alreadyExists => bytes "File exists"
  | notDirectory => bytes "Not a directory"
  | isDirectory => bytes "Is a directory"
  | nameTooLong => bytes "File name too long"
  | zeroByte => bytes "file name contained an unexpected NUL byte"
  | notText => bytes "stream did not contain valid UTF-8"
  | storageFull => bytes "No space left on device"
  | inputOutput => bytes "Input/output error"

/-- The number of an error of the system. -/
def number? : FileError → Option Nat
  | notFound => some 2
  | alreadyExists => some 17
  | notDirectory => some 20
  | isDirectory => some 21
  | nameTooLong => some 36
  | storageFull => some 28
  | inputOutput => some 5
  | zeroByte | notText => none

def message (e : FileError) : Bytes :=
  match e.number? with
  | some number => e.words ++ bytes " (os error " ++ Bytes.ofNat number ++ bytes ")"
  | none => e.words

end FileError

/-- The names that lead to a file or directory. The root is the empty list. -/
abbrev Location := List Bytes

inductive Node where
  | file (content : Bytes)
  | directory
  deriving DecidableEq, Repr

/-- What a medium with these entries on it does with the bytes that a file is given: `none` if it
takes them all, else how many of them it takes, and why no more. -/
abbrev Medium := List (Location × Node) → Location → Bytes → Option (Nat × FileError)

/-- Everything but the root, which is always there, the directory that relative paths start from,
and what it is all written on. -/
structure Store where
  entries : List (Location × Node)
  current : Location
  medium : Medium
  nodup : (entries.map Prod.fst).Nodup

namespace Store

/-- An empty store, on a medium that takes everything. -/
def empty : Store := ⟨[], [], fun _ _ _ => none, List.nodup_nil⟩

def get? (s : Store) (l : Location) : Option Node :=
  if l = [] then some .directory else s.entries.lookup l

theorem nodup_filter {entries : List (Location × Node)} (p : Location × Node → Bool)
    (h : (entries.map Prod.fst).Nodup) : ((entries.filter p).map Prod.fst).Nodup :=
  h.sublist (List.filter_sublist.map _)

/-- The store with `node` at `l`. -/
def set (s : Store) (l : Location) (node : Node) : Store where
  entries := (l, node) :: s.entries.filter fun e => e.1 ≠ l
  current := s.current
  medium := s.medium
  nodup := by
    rw [List.map_cons, List.nodup_cons]
    refine ⟨?_, nodup_filter _ s.nodup⟩
    intro member
    obtain ⟨e, he, rfl⟩ := List.mem_map.mp member
    have := (List.mem_filter.mp he).2
    simp at this

/-- A store of nothing but the directories that lead to the current one. -/
def startingAt (current : Location) : Store :=
  let onTheWay := (List.range current.length).map fun n => current.take (n + 1)
  { onTheWay.foldl (fun s l => s.set l .directory) empty with current := current }

/-- The store without what is at `l` or below. -/
def erase (s : Store) (l : Location) : Store where
  entries := s.entries.filter fun e => !l.isPrefixOf e.1
  current := s.current
  medium := s.medium
  nodup := nodup_filter _ s.nodup

/-- What was set last counts. -/
theorem set_set (s : Store) (l : Location) (node node' : Node) :
    (s.set l node).set l node' = s.set l node' := by
  simp [set, List.filter_filter]

theorem lookup_filter_ne {entries : List (Location × Node)} {l k : Location} (h : k ≠ l) :
    (entries.filter fun e => e.1 ≠ l).lookup k = entries.lookup k := by
  induction entries with
  | nil => rfl
  | cons e rest ih =>
    obtain ⟨at', node⟩ := e
    by_cases same : at' = l
    · have other : (k == at') = false := by simpa [same] using h
      simp [same, List.lookup_cons] at ih ⊢
      simp [ih, same ▸ other]
    · simp [same, List.lookup_cons] at ih ⊢
      simp [ih]

@[simp] theorem get?_set_self (s : Store) {l : Location} (h : l ≠ []) (node : Node) :
    (s.set l node).get? l = some node := by
  simp [get?, set, h]

theorem get?_set_of_ne (s : Store) {l k : Location} (h : k ≠ l) (node : Node) :
    (s.set l node).get? k = s.get? k := by
  have other : (k == l) = false := by simpa using h
  unfold get? set
  rw [List.lookup_cons, other, lookup_filter_ne h]

/-- The names of what is directly below `l`, in increasing order. -/
def names (s : Store) (l : Location) : List Bytes :=
  (s.entries.filterMap fun (k, _) =>
    if k.length = l.length + 1 && l.isPrefixOf k then k.getLast? else none).mergeSort Bytes.le

def maxName : Nat := 255

def maxPath : Nat := 4095

/-- One step from a directory. -/
def step (s : Store) (l : Location) (segment : Bytes) : Except FileError Location :=
  match s.get? l with
  | none => .error .notFound
  | some (.file _) => .error .notDirectory
  | some .directory =>
    if Path.isIdle segment then .ok l
    else if segment == [0x2E, 0x2E] then .ok l.dropLast
    else if maxName < segment.length then .error .nameTooLong
    else if (s.get? (l ++ [segment])).isSome then .ok (l ++ [segment])
    else .error .notFound

def walk (s : Store) (l : Location) : List Bytes → Except FileError Location
  | [] => .ok l
  | segment :: rest => s.step l segment >>= fun next => s.walk next rest

/-- Where a path starts. Before its first step the path itself may be refused. -/
def origin (s : Store) (p : Path) : Except FileError Location :=
  if p.contains 0 then .error .zeroByte
  else if p.isEmpty then .error .notFound
  else if maxPath < p.length then .error .nameTooLong
  else .ok (if p.isAbsolute then [] else s.current)

/-- The location of what a path leads to. -/
def resolve (s : Store) (p : Path) : Except FileError Location :=
  s.origin p >>= fun l => s.walk l (Path.segments p)

def find? (s : Store) (p : Path) : Option Node := (s.resolve p).toOption.bind s.get?

def exists? (s : Store) (p : Path) : Bool := (s.find? p).isSome

def isDirectory (s : Store) (p : Path) : Bool := s.find? p == some .directory

def isFile (s : Store) (p : Path) : Bool :=
  match s.find? p with
  | some (.file _) => true
  | _ => false

def read (s : Store) (p : Path) : Except FileError Bytes :=
  match s.resolve p with
  | .error e => .error e
  | .ok l =>
    match s.get? l with
    | some (.file content) => .ok content
    | some .directory => .error .isDirectory
    | none => .error .notFound

def list (s : Store) (p : Path) : Except FileError (List Bytes) :=
  match s.resolve p with
  | .error e => .error e
  | .ok l =>
    match s.get? l with
    | some .directory => .ok (s.names l)
    | some (.file _) => .error .notDirectory
    | none => .error .notFound

/-- Where segments, followed from a location, put something new: the directory it goes into, and
its name. If the last segment is no name they lead to what is there already; then the name is
`none`. -/
def target (s : Store) (l : Location) (segments : List Bytes) :
    Except FileError (Location × Option Bytes) :=
  match segments.reverse with
  | [] => .error .notFound
  | last :: before =>
    match s.walk l before.reverse with
    | .error e => .error e
    | .ok l =>
      match s.get? l with
      | some .directory =>
        if Path.isIdle last || last == [0x2E, 0x2E] then .ok (l, none)
        else if maxName < last.length then .error .nameTooLong
        else .ok (l, some last)
      | some (.file _) => .error .notDirectory
      | none => .error .notFound

/-- Makes a directory in a directory that is there. -/
def makeDirectory (s : Store) (p : Path) : Except FileError Store := do
  let start ← s.origin p
  let segments := ((Path.segments p).reverse.dropWhile List.isEmpty).reverse
  if segments.isEmpty then .error .alreadyExists
  else
    match ← s.target start segments with
    | (_, none) => .error .alreadyExists
    | (l, some name) =>
      if (s.get? (l ++ [name])).isSome then .error .alreadyExists
      else .ok (s.set (l ++ [name]) .directory)

/-- Makes a directory and those that lead to it, as far as they are missing. What was made stays
when a later one cannot be. -/
def makeDirectories (s : Store) (p : Path) : Except FileError Unit × Store :=
  if p.isEmpty then (.ok (), s)
  else
    match s.makeDirectory p with
    | .ok made => (.ok (), made)
    | .error .notFound =>
      match _up : p.parent? with
      | none => (.error .notFound, s)
      | some parent =>
        match s.makeDirectories parent with
        | (.error e, made) => (.error e, made)
        | (.ok (), made) =>
          match made.makeDirectory p with
          | .ok all => (.ok (), all)
          | .error e => if made.isDirectory p then (.ok (), made) else (.error e, made)
    | .error e => if s.isDirectory p then (.ok (), s) else (.error e, s)
termination_by p.length
decreasing_by exact Path.length_lt_of_parent? _up

/-- Opens a file in a directory that is there, with `content` in it from the start. An existing file
is replaced, if `replace` allows it. What can be cut short is put in by `append`. -/
def write (s : Store) (p : Path) (content : Bytes) (replace : Bool) : Except FileError Store := do
  match ← s.target (← s.origin p) (Path.segments p) with
  | (_, none) => .error (if replace then .isDirectory else .alreadyExists)
  | (l, some name) =>
    match s.get? (l ++ [name]) with
    | none => .ok (s.set (l ++ [name]) (.file content))
    | some (.file _) =>
      if replace then .ok (s.set (l ++ [name]) (.file content)) else .error .alreadyExists
    | some .directory => .error (if replace then .isDirectory else .alreadyExists)

/-- Writes on at the end of a file. What the medium took stays, also if it does not take all. -/
def append (s : Store) (p : Path) (content : Bytes) : Except FileError Unit × Store :=
  match s.resolve p with
  | .error e => (.error e, s)
  | .ok l =>
    match s.get? l with
    | some (.file before) =>
      match s.medium s.entries l content with
      | none => (.ok (), s.set l (.file (before ++ content)))
      | some (taken, e) => (.error e, s.set l (.file (before ++ content.take taken)))
    | some .directory => (.error .isDirectory, s)
    | none => (.error .notFound, s)

/-- Everything below the current directory, in increasing order. Directories end in a slash. -/
def contents (s : Store) : List Path :=
  (s.entries.filterMap fun (l, node) =>
    if s.current.isPrefixOf l && s.current.length < l.length then
      let path := Path.ofSegments (l.drop s.current.length)
      some (match node with
        | .file _ => path
        | .directory => path ++ [0x2F])
    else none).mergeSort Bytes.le

end Store
end PassCompiler

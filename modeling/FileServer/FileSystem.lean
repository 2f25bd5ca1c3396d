import Mathlib.Data.List.DropRight
import FileServer.Path

/-!
# Files, directories and the calls that use them

A tree of directories and regular files, as the C library shows it to the
server. A name and the contents behind it are apart: a removed file lives on for
the handles that hold it open, and a name created again gets new contents. No
function of the server links or renames, so the contents are kept with the name
they were created under. There are no links here: trees that have some are in
`LinkedFiles`. Writes take effect when they are called.

Each call is given the fault, if any, that the system adds to it: the text of
its `errno`, and for `fread` and `fwrite` how many bytes still pass.
-/

namespace FileServer

open LexicalPath
set_option autoImplicit false

abbrev Location := Place CString

inductive Node where
  | absent
  | dir
  | file (inode : Nat)
  deriving DecidableEq, Repr

/-- The node a name stands for, and the contents ever created under the name. -/
structure Cell where
  node : Node
  inodes : List (List Byte)
  deriving DecidableEq, Repr

structure Files where
  entries : List (Location × Cell)

def Files.view (files : Files) (q : Location) : Cell :=
  (files.entries.lookup q).getD ⟨.absent, []⟩

def Files.set (files : Files) (q : Location) (c : Cell) : Files := ⟨(q, c) :: files.entries⟩

/-- The root of the tree is a directory whatever the entries say. -/
def Files.node (files : Files) (q : Location) : Node :=
  if q.names = [] then .dir else (files.view q).node

def Files.contentAt (files : Files) (q : Location) : Option (List Byte) :=
  match files.node q with
  | .file k => (files.view q).inodes[k]?
  | .absent | .dir => none

def isChild (d q : Location) : Prop := q.names ≠ [] ∧ q.up = d

instance (d q : Location) : Decidable (isChild d q) := inferInstanceAs (Decidable (_ ∧ _))

def Files.isEmpty (files : Files) (d : Location) : Bool :=
  files.entries.all fun e => ¬ (isChild d e.1 ∧ (files.view e.1).node ≠ .absent)

def enoent : CString := cstr "No such file or directory"
def enotdir : CString := cstr "Not a directory"
def eisdir : CString := cstr "Is a directory"
def eexist : CString := cstr "File exists"
def einval : CString := cstr "Invalid argument"
def ebusy : CString := cstr "Device or resource busy"
def enotempty : CString := cstr "Directory not empty"
def enametoolong : CString := cstr "File name too long"

/-- Where a path string starts: at the root, or in the working directory. -/
def origin (cwd : List CString) (path : CString) : Location :=
  ⟨true, 0, if path.head? = some slash then [] else cwd⟩

def locate (cwd : List CString) (path : CString) : Location :=
  (origin cwd path).follow (components path)

/-- The locations a path passes, the last of them being where it leads. -/
def route : Location → List (Component CString) → List Location
  | q, [] => [q]
  | q, c :: cs => q :: route (q.walk c) cs

/-- No directory has an entry whose name is longer than `NAME_MAX`. -/
def overlong : Component CString → Bool
  | .here | .up => false
  | .name n => n.length > 255

/-- The `errno` of a path that does not pass through directories only. -/
def Files.barred (files : Files) : Location → List (Component CString) → Option CString
  | _, [] => none
  | q, c :: cs =>
    match files.node q with
    | .dir => if overlong c then some enametoolong else files.barred (q.walk c) cs
    | .absent => some enoent
    | .file _ => some enotdir

def trimSlashes (path : CString) : CString := path.rdropWhile (· = slash)

structure Fault where
  errno : CString
  count : Nat

/-- A `FILE`: the contents it was opened on (none for a directory), the position
and the error indicator. -/
structure Handle where
  inode : Option Nat
  offset : Nat
  error : Bool
  deriving DecidableEq, Repr

def openedOn (inode : Option Nat) : Handle := ⟨inode, 0, false⟩

structure CallAnswer where
  error : Option CString
  handle : Handle
  bytes : List Byte

def failed (errno : CString) : CallAnswer := ⟨some errno, openedOn none, []⟩
def succeeded : CallAnswer := ⟨none, openedOn none, []⟩
def opened (inode : Option Nat) : CallAnswer := ⟨none, openedOn inode, []⟩

def writeAt (old : List Byte) (offset : Nat) (block : List Byte) : List Byte :=
  old.take offset ++ List.replicate (offset - old.length) 0 ++ block ++
    old.drop (offset + block.length)

/-- `plain` stands for `fclose`, `fseek`, `ftell` and `malloc`, which leave the
files as they are; `chmod` reports what the file holds at that moment. -/
inductive Op where
  | fopenRead
  | fopenWrite
  | fread (h : Handle)
  | fwrite (h : Handle) (block : List Byte)
  | mkdir
  | remove
  | unlink
  | chmod
  | plain

structure Request where
  path : CString
  op : Op

def blockSize : Nat := 8192

section Calls
variable (cwd : List CString) (files : Files) (path : CString)

def fopenRead : CallAnswer :=
  match files.barred (origin cwd path) (components path) with
  | some errno => failed errno
  | none =>
    match files.node (locate cwd path) with
    | .absent => failed enoent
    | .dir => opened none
    | .file k => opened (some k)

/-- Opening for writing truncates the file or creates it. -/
def fopenWrite : CallAnswer × Option Cell :=
  match files.barred (origin cwd path) (components (trimSlashes path)) with
  | some errno => (failed errno, none)
  | none =>
    if path.getLast? = some slash then (failed eisdir, none)
    else
      let cell := files.view (locate cwd path)
      match files.node (locate cwd path) with
      | .dir => (failed eisdir, none)
      | .absent =>
        (opened (some cell.inodes.length), some ⟨.file cell.inodes.length, cell.inodes ++ [[]]⟩)
      | .file k => (opened (some k), some { cell with inodes := cell.inodes.set k [] })

def fread (fault : Option Fault) (h : Handle) : CallAnswer :=
  match h.inode with
  | none => ⟨some eisdir, { h with error := true }, []⟩
  | some k =>
    let rest := ((files.view (locate cwd path)).inodes.getD k []).drop h.offset
    match fault with
    | none =>
      let bytes := rest.take blockSize
      ⟨none, { h with offset := h.offset + bytes.length }, bytes⟩
    | some f =>
      let bytes := rest.take (min f.count (blockSize - 1))
      ⟨some f.errno, { h with offset := h.offset + bytes.length, error := true }, bytes⟩

def fwrite (fault : Option Fault) (h : Handle) (block : List Byte) : CallAnswer × Option Cell :=
  match h.inode with
  | none => (failed eisdir, none)
  | some k =>
    let cell := files.view (locate cwd path)
    let put (bytes : List Byte) : Cell :=
      { cell with inodes := cell.inodes.set k (writeAt (cell.inodes.getD k []) h.offset bytes) }
    match fault with
    | none => (⟨none, { h with offset := h.offset + block.length }, []⟩, some (put block))
    | some f =>
      let bytes := block.take (min f.count (block.length - 1))
      (failed f.errno, some (put bytes))

def mkdir : CallAnswer × Option Cell :=
  match files.barred (origin cwd path) (components (trimSlashes path)) with
  | some errno => (failed errno, none)
  | none =>
    match files.node (locate cwd path) with
    | .absent => (succeeded, some { files.view (locate cwd path) with node := .dir })
    | .dir | .file _ => (failed eexist, none)

def removed : Cell := { files.view (locate cwd path) with node := .absent }

def unlink : CallAnswer × Option Cell :=
  match files.barred (origin cwd path) (components path) with
  | some errno => (failed errno, none)
  | none =>
    match files.node (locate cwd path) with
    | .absent => (failed enoent, none)
    | .dir => (failed eisdir, none)
    | .file _ => (succeeded, some (removed cwd files path))

/-- `remove` unlinks a file and removes an empty directory. -/
def remove : CallAnswer × Option Cell :=
  match files.barred (origin cwd path) (components path) with
  | some errno => (failed errno, none)
  | none =>
    match files.node (locate cwd path) with
    | .absent => (failed enoent, none)
    | .file _ => (succeeded, some (removed cwd files path))
    | .dir =>
      if (splitSlash (trimSlashes path)).getLast? = some (cstr ".") then (failed einval, none)
      else if (locate cwd path).names = [] then (failed ebusy, none)
      else if files.isEmpty (locate cwd path) then (succeeded, some (removed cwd files path))
      else (failed enotempty, none)

def chmod : CallAnswer :=
  match files.barred (origin cwd path) (components path) with
  | some errno => failed errno
  | none =>
    match files.contentAt (locate cwd path) with
    | some bytes => ⟨none, openedOn none, bytes⟩
    | none => failed enoent

end Calls

/-- The answer to a request and the cell it leaves at its path, if it changes it. -/
def respond (cwd : List CString) (fault : Option Fault) (files : Files) (r : Request) :
    CallAnswer × Option Cell :=
  match r.op, fault with
  | .fread h, _ => (fread cwd files r.path fault h, none)
  | .fwrite h block, _ => fwrite cwd files r.path fault h block
  | _, some f => (failed f.errno, none)
  | .fopenRead, none => (fopenRead cwd files r.path, none)
  | .fopenWrite, none => fopenWrite cwd files r.path
  | .mkdir, none => mkdir cwd files r.path
  | .remove, none => remove cwd files r.path
  | .unlink, none => unlink cwd files r.path
  | .chmod, none => (chmod cwd files r.path, none)
  | .plain, none => (succeeded, none)

def perform (cwd : List CString) (fault : Option Fault) (files : Files) (r : Request) :
    CallAnswer × Files :=
  match respond cwd fault files r with
  | (a, none) => (a, files)
  | (a, some c) => (a, files.set (locate cwd r.path) c)

/-- What a request on a path can depend on: the locations the path passes, and
the entries of the directory it leads to. -/
def touched (cwd : List CString) (path : CString) : Set Location :=
  {q | q ∈ route (origin cwd path) (components path) ∨ isChild (locate cwd path) q}

instance (cwd : List CString) (path : CString) (q : Location) : Decidable (q ∈ touched cwd path) :=
  inferInstanceAs (Decidable (_ ∨ _))

theorem view_set (files : Files) (q : Location) (c : Cell) (l : Location) :
    (files.set q c).view l = if l = q then c else files.view l := by
  unfold Files.view Files.set
  rw [List.lookup_cons]
  rcases eq_or_ne l q with rfl | hne
  · simp
  · simp [hne, beq_false_of_ne hne]

theorem view_eq_absent {files : Files} {q : Location} (h : ∀ c, (q, c) ∉ files.entries) :
    files.view q = ⟨.absent, []⟩ := by
  have hnone : files.entries.lookup q = none := by
    rw [List.lookup_eq_none_iff]
    intro e he
    have hne : q ≠ e.1 := by
      rintro rfl
      exact h e.2 he
    simpa using hne
  simp [Files.view, hnone]

theorem isEmpty_iff (files : Files) (d : Location) :
    files.isEmpty d = true ↔ ∀ q, isChild d q → (files.view q).node = .absent := by
  unfold Files.isEmpty
  rw [List.all_eq_true]
  constructor
  · intro h q hq
    by_cases hmem : ∃ c, (q, c) ∈ files.entries
    · obtain ⟨c, hc⟩ := hmem
      simpa [hq] using h _ hc
    · rw [view_eq_absent (not_exists.mp hmem)]
  · intro h e _
    simpa [imp_iff_not_or] using h e.1

theorem mem_route_start (q : Location) (cs : List (Component CString)) : q ∈ route q cs := by
  cases cs <;> simp [route]

theorem follow_mem_route (q : Location) (cs : List (Component CString)) :
    q.follow cs ∈ route q cs := by
  induction cs generalizing q with
  | nil => exact List.mem_singleton_self q
  | cons c cs ih => exact List.mem_cons_of_mem q (ih (q.walk c))

theorem route_subset_append (q : Location) (cs ds : List (Component CString)) :
    route q cs ⊆ route q (cs ++ ds) := by
  induction cs generalizing q with
  | nil =>
    intro l hl
    obtain rfl := List.mem_singleton.mp hl
    exact mem_route_start _ ds
  | cons c cs ih =>
    intro l hl
    rcases List.mem_cons.mp hl with rfl | hrest
    · exact List.mem_cons_self
    · exact List.mem_cons_of_mem q (ih (q.walk c) hrest)

/-- Without its trailing slashes a path passes no other locations. -/
theorem route_trimSlashes (q : Location) (path : CString) :
    route q (components (trimSlashes path)) ⊆ route q (components path) := by
  induction path using List.reverseRecOn with
  | nil => exact List.Subset.refl _
  | append_singleton path c ih =>
    rcases eq_or_ne c slash with rfl | hne
    · have hsplit : components (path ++ [slash]) = components path ++ components [] := by
        rw [components, splitSlash_append, List.map_append]
        rfl
      rw [trimSlashes, List.rdropWhile_concat_pos _ _ _ (by simp), hsplit]
      exact List.Subset.trans ih (route_subset_append _ _ _)
    · rw [trimSlashes, List.rdropWhile_concat_neg _ _ _ (by simpa using hne)]
      exact List.Subset.refl _

section Locality
variable {files files' : Files} {cwd : List CString} {path : CString}

theorem node_congr {q : Location} (h : files.view q = files'.view q) :
    files.node q = files'.node q := by
  rw [Files.node, Files.node, h]

theorem contentAt_congr {q : Location} (h : files.view q = files'.view q) :
    files.contentAt q = files'.contentAt q := by
  rw [Files.contentAt, Files.contentAt, node_congr h, h]

theorem barred_congr {q : Location} {cs : List (Component CString)}
    (h : ∀ l ∈ route q cs, files.view l = files'.view l) :
    files.barred q cs = files'.barred q cs := by
  induction cs generalizing q with
  | nil => rfl
  | cons c cs ih =>
    rw [Files.barred, Files.barred, node_congr (h q List.mem_cons_self),
      ih fun l hl => h l (List.mem_cons_of_mem q hl)]

theorem isEmpty_congr {d : Location} (h : ∀ q, isChild d q → files.view q = files'.view q) :
    files.isEmpty d = files'.isEmpty d := by
  rw [Bool.eq_iff_iff, isEmpty_iff, isEmpty_iff]
  refine forall_congr' fun q => forall_congr' fun hq => ?_
  rw [h q hq]

theorem locate_touched : locate cwd path ∈ touched cwd path := Or.inl (follow_mem_route _ _)

/-- The answer to a request depends only on what its path touches. -/
theorem respond_congr {r : Request} (fault : Option Fault)
    (h : ∀ l ∈ touched cwd r.path, files.view l = files'.view l) :
    respond cwd fault files r = respond cwd fault files' r := by
  have hview := h _ locate_touched
  have hnode := node_congr hview
  have hbarred := barred_congr fun l hl => h l (Or.inl hl)
  have htrim : files.barred (origin cwd r.path) (components (trimSlashes r.path)) =
      files'.barred (origin cwd r.path) (components (trimSlashes r.path)) :=
    barred_congr fun l hl => h l (Or.inl (route_trimSlashes _ _ hl))
  have hempty := isEmpty_congr fun l hl => h l (Or.inr hl)
  have hcontent := contentAt_congr hview
  obtain ⟨p, op⟩ := r
  dsimp only at hview hnode hbarred htrim hempty hcontent
  cases op <;> cases fault <;>
    simp only [respond, fread, fwrite, fopenRead, fopenWrite, mkdir, remove, unlink, chmod, removed,
      hview, hnode, hbarred, htrim, hempty, hcontent]

theorem perform_view_of_ne {r : Request} {fault : Option Fault} {l : Location}
    (hne : l ≠ locate cwd r.path) : (perform cwd fault files r).2.view l = files.view l := by
  unfold perform
  split
  · rfl
  · rw [view_set, if_neg hne]

theorem perform_frame {r : Request} (fault : Option Fault) {l : Location}
    (h : l ∉ touched cwd r.path) : (perform cwd fault files r).2.view l = files.view l := by
  apply perform_view_of_ne
  rintro rfl
  exact h locate_touched

theorem perform_congr {r : Request} (fault : Option Fault) {foot : Set Location}
    (hsub : touched cwd r.path ⊆ foot) (h : ∀ l ∈ foot, files.view l = files'.view l) :
    (perform cwd fault files r).1 = (perform cwd fault files' r).1 ∧
      ∀ l ∈ foot, (perform cwd fault files r).2.view l = (perform cwd fault files' r).2.view l := by
  have hsame := respond_congr fault fun l hl => h l (hsub hl)
  unfold perform
  rw [hsame]
  split
  · exact ⟨rfl, h⟩
  · refine ⟨rfl, fun l hl => ?_⟩
    rw [view_set, view_set, h l hl]

end Locality

end FileServer

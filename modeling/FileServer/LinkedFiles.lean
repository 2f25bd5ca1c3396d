import Mathlib.Logic.Function.Basic
import FileServer.FileSystem

/-!
# Files with links

The same calls on a tree whose names may be links: one file can stand under several
names, and a symbolic link sends the path on that comes to it. No call of the server
makes a link, but a client may name one as a source, and the storage root may hold
some. A call that opens a file follows a link at the end of its path; `mkdir`,
`unlink` and `remove` are about the name itself.
-/

namespace FileServer

open LexicalPath
set_option autoImplicit false

inductive TreeEntry where
  | absent
  | dir
  | file (inode : Nat)
  | link (target : CString)
  deriving DecidableEq, Repr

/-- The names with what they stand for, the contents of the files, and the number that
the next file gets. -/
structure Tree where
  entries : List (Location × TreeEntry)
  contents : Nat → List Byte
  next : Nat

def Tree.entry (t : Tree) (q : Location) : TreeEntry :=
  if q.names = [] then .dir else (t.entries.lookup q).getD .absent

def Tree.set (t : Tree) (q : Location) (e : TreeEntry) : Tree := { t with entries := (q, e) :: t.entries }

def Tree.put (t : Tree) (k : Nat) (bytes : List Byte) : Tree :=
  { t with contents := Function.update t.contents k bytes }

/-- A new empty file at `q`. -/
def Tree.create (t : Tree) (q : Location) : Tree :=
  ⟨(q, .file t.next) :: t.entries, Function.update t.contents t.next [], t.next + 1⟩

def Tree.isEmpty (t : Tree) (d : Location) : Bool :=
  t.entries.all fun e => ¬ (isChild d e.1 ∧ t.entry e.1 ≠ .absent)

def eloop : CString := cstr "Too many levels of symbolic links"

/-- How far a path goes without following a link. -/
inductive Stride where
  | arrived (q : Location)
  | barred (errno : CString)
  | turned (q : Location) (rest : List (Component CString))

/-- `last` says whether a link at the end of the path is followed. -/
def Tree.stride (t : Tree) (last : Bool) : Location → List (Component CString) → Stride
  | q, [] => .arrived q
  | q, c :: cs =>
    match t.entry q with
    | .absent => .barred enoent
    | .file _ | .link _ => .barred enotdir
    | .dir =>
      if overlong c then .barred enametoolong
      else
        match t.entry (q.walk c) with
        | .link target =>
          if cs = [] ∧ last = false then .arrived (q.walk c)
          else .turned (origin q.names target) (components target ++ cs)
        | .absent | .dir | .file _ => t.stride last (q.walk c) cs

/-- Where a path leads that may follow fewer than `n` links. -/
def Tree.lead (t : Tree) (last : Bool) : Nat → Location → List (Component CString) →
    Except CString Location
  | 0, _, _ => .error eloop
  | n + 1, q, cs =>
    match t.stride last q cs with
    | .arrived l => .ok l
    | .barred errno => .error errno
    | .turned q' cs' => t.lead last n q' cs'

/-- The names that a stride looks at. -/
def Tree.looks (t : Tree) : Location → List (Component CString) → List Location
  | q, [] => [q]
  | q, c :: cs =>
    match t.entry (q.walk c) with
    | .link _ => [q, q.walk c]
    | .absent | .dir | .file _ => q :: t.looks (q.walk c) cs

/-- The names that a path looks at on its way. -/
def Tree.way (t : Tree) (last : Bool) : Nat → Location → List (Component CString) → List Location
  | 0, _, _ => []
  | n + 1, q, cs =>
    t.looks q cs ++
      match t.stride last q cs with
      | .arrived _ | .barred _ => []
      | .turned q' cs' => t.way last n q' cs'

/-- 40 links are followed and no more. -/
def strides : Nat := 41

section Calls
variable (cwd : List CString) (t : Tree) (path : CString)

/-- Where a path leads, all its links followed. -/
def Tree.target : Except CString Location := t.lead true strides (origin cwd path) (components path)

/-- The name that a path ends with. -/
def Tree.nameAt : Except CString Location :=
  t.lead false strides (origin cwd path) (components (trimSlashes path))

def Tree.fopenRead : CallAnswer :=
  match t.target cwd path with
  | .error errno => failed errno
  | .ok l =>
    match t.entry l with
    | .absent | .link _ => failed enoent
    | .dir => opened none
    | .file k => opened (some k)

def Tree.fopenWrite : CallAnswer × Tree :=
  if path.getLast? = some slash then
    match t.nameAt cwd path with
    | .error errno => (failed errno, t)
    | .ok _ => (failed eisdir, t)
  else
    match t.target cwd path with
    | .error errno => (failed errno, t)
    | .ok l =>
      match t.entry l with
      | .dir | .link _ => (failed eisdir, t)
      | .absent => (opened (some t.next), t.create l)
      | .file k => (opened (some k), t.put k [])

def Tree.fread (fault : Option Fault) (h : Handle) : CallAnswer :=
  match h.inode with
  | none => ⟨some eisdir, { h with error := true }, []⟩
  | some k =>
    let rest := (t.contents k).drop h.offset
    match fault with
    | none =>
      let bytes := rest.take blockSize
      ⟨none, { h with offset := h.offset + bytes.length }, bytes⟩
    | some f =>
      let bytes := rest.take (min f.count (blockSize - 1))
      ⟨some f.errno, { h with offset := h.offset + bytes.length, error := true }, bytes⟩

def Tree.fwrite (fault : Option Fault) (h : Handle) (block : List Byte) : CallAnswer × Tree :=
  match h.inode with
  | none => (failed eisdir, t)
  | some k =>
    let put (bytes : List Byte) : Tree := t.put k (writeAt (t.contents k) h.offset bytes)
    match fault with
    | none => (⟨none, { h with offset := h.offset + block.length }, []⟩, put block)
    | some f => (failed f.errno, put (block.take (min f.count (block.length - 1))))

def Tree.mkdir : CallAnswer × Tree :=
  match t.nameAt cwd path with
  | .error errno => (failed errno, t)
  | .ok l =>
    match t.entry l with
    | .absent => (succeeded, t.set l .dir)
    | .dir | .file _ | .link _ => (failed eexist, t)

def Tree.unlink : CallAnswer × Tree :=
  match t.nameAt cwd path with
  | .error errno => (failed errno, t)
  | .ok l =>
    match t.entry l with
    | .absent => (failed enoent, t)
    | .dir => (failed eisdir, t)
    | .file _ | .link _ =>
      if path.getLast? = some slash then (failed enotdir, t) else (succeeded, t.set l .absent)

def Tree.remove : CallAnswer × Tree :=
  match t.nameAt cwd path with
  | .error errno => (failed errno, t)
  | .ok l =>
    match t.entry l with
    | .absent => (failed enoent, t)
    | .file _ | .link _ =>
      if path.getLast? = some slash then (failed enotdir, t) else (succeeded, t.set l .absent)
    | .dir =>
      if (splitSlash (trimSlashes path)).getLast? = some (cstr ".") then (failed einval, t)
      else if l.names = [] then (failed ebusy, t)
      else if t.isEmpty l then (succeeded, t.set l .absent)
      else (failed enotempty, t)

/-- What the file holds that a path leads to. -/
def Tree.contentAt : Option (List Byte) :=
  match t.target cwd path with
  | .error _ => none
  | .ok l =>
    match t.entry l with
    | .file k => some (t.contents k)
    | .absent | .dir | .link _ => none

def Tree.chmod : CallAnswer :=
  match t.target cwd path with
  | .error errno => failed errno
  | .ok _ =>
    match t.contentAt cwd path with
    | some bytes => ⟨none, openedOn none, bytes⟩
    | none => failed enoent

end Calls

def Tree.opendir (cwd : List CString) (t : Tree) (path : CString) : Bool :=
  match t.target cwd path with
  | .error _ => false
  | .ok l => t.entry l = .dir

def Tree.perform (cwd : List CString) (fault : Option Fault) (t : Tree) (r : Request) :
    CallAnswer × Tree :=
  match r.op, fault with
  | .fread h, _ => (t.fread fault h, t)
  | .fwrite h block, _ => t.fwrite fault h block
  | _, some f => (failed f.errno, t)
  | .fopenRead, none => (t.fopenRead cwd r.path, t)
  | .fopenWrite, none => t.fopenWrite cwd r.path
  | .mkdir, none => t.mkdir cwd r.path
  | .remove, none => t.remove cwd r.path
  | .unlink, none => t.unlink cwd r.path
  | .chmod, none => (t.chmod cwd r.path, t)
  | .plain, none => (succeeded, t)

section Entries
variable (t : Tree) (q l : Location)

theorem Tree.entry_set (e : TreeEntry) :
    (t.set q e).entry l = if l.names = [] then .dir else if l = q then e else t.entry l := by
  unfold Tree.entry Tree.set
  split
  · rfl
  · rw [List.lookup_cons]
    rcases eq_or_ne l q with rfl | hne
    · simp
    · simp [hne, beq_false_of_ne hne]

theorem Tree.entry_create : (t.create q).entry l =
    if l.names = [] then .dir else if l = q then .file t.next else t.entry l :=
  Tree.entry_set t q l _

variable {t q}

theorem Tree.names_ne_nil {e : TreeEntry} (h : t.entry q = e) (hdir : e ≠ .dir) : q.names ≠ [] := by
  intro hnil
  rw [Tree.entry, if_pos hnil] at h
  exact hdir h.symm

end Entries

/-- The tree after a call. -/
inductive TreeChange (cwd : List CString) (t : Tree) (r : Request) : Tree → Prop
  | keep : TreeChange cwd t r t
  | create {l : Location} : r.op = .fopenWrite → t.target cwd r.path = .ok l →
      t.entry l = .absent → TreeChange cwd t r (t.create l)
  | truncate {l : Location} {k : Nat} : r.op = .fopenWrite → t.target cwd r.path = .ok l →
      t.entry l = .file k → TreeChange cwd t r (t.put k [])
  | write {h : Handle} {k : Nat} {block : List Byte} (bytes : List Byte) :
      r.op = .fwrite h block → h.inode = some k →
      TreeChange cwd t r (t.put k (writeAt (t.contents k) h.offset bytes))
  | mkdir {l : Location} : r.op = .mkdir → t.nameAt cwd r.path = .ok l → t.entry l = .absent →
      TreeChange cwd t r (t.set l .dir)
  | remove {l : Location} : r.op = .remove ∨ r.op = .unlink → t.nameAt cwd r.path = .ok l →
      t.entry l ≠ .absent → l.names ≠ [] → TreeChange cwd t r (t.set l .absent)

section Changes
variable {cwd : List CString} {t t' : Tree} {path : CString} {r : Request} {fault : Option Fault}
  {h : Handle} {block : List Byte} {q : Location}

theorem Tree.fopenWrite_cases (cwd : List CString) (t : Tree) (path : CString) :
    (∃ errno, t.fopenWrite cwd path = (failed errno, t)) ∨
    (path.getLast? ≠ some slash ∧ ∃ l, t.target cwd path = .ok l ∧
      ((t.entry l = .absent ∧
          t.fopenWrite cwd path = (opened (some t.next), t.create l)) ∨
        ∃ k, t.entry l = .file k ∧ t.fopenWrite cwd path = (opened (some k), t.put k []))) := by
  unfold Tree.fopenWrite
  split
  · split
    · exact Or.inl ⟨_, rfl⟩
    · exact Or.inl ⟨_, rfl⟩
  · rename_i hlast
    split
    · exact Or.inl ⟨_, rfl⟩
    · rename_i l hl
      split
      · exact Or.inl ⟨_, rfl⟩
      · exact Or.inl ⟨_, rfl⟩
      · rename_i habsent
        exact Or.inr ⟨hlast, l, hl, Or.inl ⟨habsent, rfl⟩⟩
      · rename_i k hk
        exact Or.inr ⟨hlast, l, hl, Or.inr ⟨k, hk, rfl⟩⟩

theorem fopenWrite_treeChange : TreeChange cwd t ⟨path, .fopenWrite⟩ (t.fopenWrite cwd path).2 := by
  rcases t.fopenWrite_cases cwd path with ⟨errno, heq⟩ | ⟨-, l, hl, ⟨habsent, heq⟩ | ⟨k, hk, heq⟩⟩
  · rw [heq]
    exact .keep
  · rw [heq]
    exact .create rfl hl habsent
  · rw [heq]
    exact .truncate rfl hl hk

theorem fwrite_treeChange : TreeChange cwd t ⟨path, .fwrite h block⟩ (t.fwrite fault h block).2 := by
  unfold Tree.fwrite
  split
  · exact .keep
  · rename_i k hk
    cases fault with
    | none => exact .write _ rfl hk
    | some f => exact .write _ rfl hk

theorem mkdir_treeChange : TreeChange cwd t ⟨path, .mkdir⟩ (t.mkdir cwd path).2 := by
  unfold Tree.mkdir
  split
  · exact .keep
  · rename_i l hl
    split
    · rename_i habsent
      exact .mkdir rfl hl habsent
    · exact .keep
    · exact .keep
    · exact .keep

theorem unlink_treeChange : TreeChange cwd t ⟨path, .unlink⟩ (t.unlink cwd path).2 := by
  unfold Tree.unlink
  split
  · exact .keep
  · rename_i l hl
    have hgone : ∀ e, t.entry l = e → e ≠ .absent → e ≠ .dir →
        TreeChange cwd t ⟨path, .unlink⟩ (t.set l .absent) := by
      rintro e rfl habsent hdir
      exact .remove (Or.inr rfl) hl habsent (Tree.names_ne_nil rfl hdir)
    split
    · exact .keep
    · exact .keep
    · rename_i k hk
      split
      · exact .keep
      · exact hgone _ hk (by simp) (by simp)
    · rename_i target htarget
      split
      · exact .keep
      · exact hgone _ htarget (by simp) (by simp)

theorem remove_treeChange : TreeChange cwd t ⟨path, .remove⟩ (t.remove cwd path).2 := by
  unfold Tree.remove
  split
  · exact .keep
  · rename_i l hl
    have hgone : ∀ e, t.entry l = e → e ≠ .absent → l.names ≠ [] →
        TreeChange cwd t ⟨path, .remove⟩ (t.set l .absent) := by
      rintro e rfl habsent hnames
      exact .remove (Or.inl rfl) hl habsent hnames
    split
    · exact .keep
    · rename_i k hk
      split
      · exact .keep
      · exact hgone _ hk (by simp) (Tree.names_ne_nil hk (by simp))
    · rename_i target htarget
      split
      · exact .keep
      · exact hgone _ htarget (by simp) (Tree.names_ne_nil htarget (by simp))
    · rename_i hdir
      split
      · exact .keep
      split
      · exact .keep
      split
      · rename_i hnames _
        exact hgone _ hdir (by simp) hnames
      · exact .keep

theorem Tree.perform_change (cwd : List CString) (fault : Option Fault) (t : Tree) (r : Request) :
    TreeChange cwd t r (t.perform cwd fault r).2 := by
  obtain ⟨path, op⟩ := r
  cases op with
  | fread h => exact .keep
  | fwrite h block => exact fwrite_treeChange
  | fopenWrite =>
    cases fault with
    | none => exact fopenWrite_treeChange
    | some f => exact .keep
  | mkdir =>
    cases fault with
    | none => exact mkdir_treeChange
    | some f => exact .keep
  | remove =>
    cases fault with
    | none => exact remove_treeChange
    | some f => exact .keep
  | unlink =>
    cases fault with
    | none => exact unlink_treeChange
    | some f => exact .keep
  | fopenRead =>
    cases fault with
    | none => exact .keep
    | some f => exact .keep
  | chmod =>
    cases fault with
    | none => exact .keep
    | some f => exact .keep
  | plain =>
    cases fault with
    | none => exact .keep
    | some f => exact .keep

/-- A name stays what it is, or something that is no link gets it. -/
def Stays (t t' : Tree) (q : Location) : Prop :=
  t'.entry q = t.entry q ∨ (t.entry q = .absent ∧ ∀ target, t'.entry q ≠ .link target)

theorem Stays.dir (hstays : Stays t t' q) (hdir : t.entry q = .dir) : t'.entry q = .dir := by
  rcases hstays with hsame | ⟨habsent, -⟩
  · rw [hsame, hdir]
  · rw [hdir] at habsent
    contradiction

theorem Stays.file {k : Nat} (hstays : Stays t t' q) (hfile : t.entry q = .file k) :
    t'.entry q = .file k := by
  rcases hstays with hsame | ⟨habsent, -⟩
  · rw [hsame, hfile]
  · rw [hfile] at habsent
    contradiction

theorem Stays.link {target : CString} (hstays : Stays t t' q) :
    t'.entry q = .link target ↔ t.entry q = .link target := by
  rcases hstays with hsame | ⟨habsent, hnew⟩
  · rw [hsame]
  · exact iff_of_false (hnew target) (by simp [habsent])

theorem Stays.present (hstays : Stays t t' q) (hpresent : t.entry q ≠ .absent) :
    t'.entry q = t.entry q := hstays.resolve_right fun h => hpresent h.1

theorem Stays.trans {t'' : Tree} (h₁ : Stays t t' q) (h₂ : Stays t' t'' q) : Stays t t'' q := by
  rcases h₁ with hsame | ⟨habsent, hnew⟩
  · rcases h₂ with hsame' | ⟨habsent', hnew'⟩
    · exact Or.inl (hsame'.trans hsame)
    · exact Or.inr ⟨hsame ▸ habsent', hnew'⟩
  · refine Or.inr ⟨habsent, ?_⟩
    rcases h₂ with hsame' | ⟨-, hnew'⟩
    · rwa [hsame']
    · exact hnew'

theorem stays_set {e : TreeEntry} (habsent : t.entry q = .absent)
    (hnew : ∀ target, e ≠ .link target) (l : Location) : Stays t (t.set q e) l := by
  rw [Stays, Tree.entry_set]
  split
  · rename_i hnames
    exact Or.inl (if_pos hnames).symm
  split
  · rename_i hl
    exact Or.inr ⟨hl ▸ habsent, hnew⟩
  · exact Or.inl rfl

/-- Only the name that is removed does not stay. -/
theorem TreeChange.stays (hchange : TreeChange cwd t r t') {l : Location}
    (hl : r.op = .remove ∨ r.op = .unlink → t.nameAt cwd r.path ≠ .ok l) : Stays t t' l := by
  cases hchange with
  | keep => exact Or.inl rfl
  | create _ _ habsent => exact stays_set habsent (by simp) l
  | truncate _ _ _ => exact Or.inl rfl
  | write _ _ _ => exact Or.inl rfl
  | mkdir _ _ habsent => exact stays_set habsent (by simp) l
  | @remove l' hop hname hpresent hnames =>
    have hne : l ≠ l' := by
      rintro rfl
      exact hl hop hname
    left
    rw [Tree.entry_set, if_neg hne]
    split
    · rename_i hnil
      exact (if_pos hnil).symm
    · rfl

theorem mkdir_stays (q : Location) : Stays t (t.mkdir cwd path).2 q := by
  apply mkdir_treeChange.stays
  simp

theorem fopenWrite_stays (q : Location) : Stays t (t.fopenWrite cwd path).2 q := by
  apply fopenWrite_treeChange.stays
  simp

theorem unlink_stays (h : t.nameAt cwd path ≠ .ok q) : Stays t (t.unlink cwd path).2 q :=
  unlink_treeChange.stays fun _ => h

theorem remove_stays (h : t.nameAt cwd path ≠ .ok q) : Stays t (t.remove cwd path).2 q :=
  remove_treeChange.stays fun _ => h

end Changes

section Ways
variable {t t' : Tree} {last : Bool} {q l : Location} {cs : List (Component CString)}

theorem mem_looks_self (t : Tree) (q : Location) (cs : List (Component CString)) :
    q ∈ t.looks q cs := by
  cases cs with
  | nil => exact List.mem_singleton_self q
  | cons c cs =>
    rw [Tree.looks]
    split <;> exact List.mem_cons_self

theorem mem_looks_next (t : Tree) (q : Location) (c : Component CString)
    (cs : List (Component CString)) : q.walk c ∈ t.looks q (c :: cs) := by
  rw [Tree.looks]
  split
  · exact List.mem_cons_of_mem _ List.mem_cons_self
  · exact List.mem_cons_of_mem _ (mem_looks_self t _ cs)
  · exact List.mem_cons_of_mem _ (mem_looks_self t _ cs)
  · exact List.mem_cons_of_mem _ (mem_looks_self t _ cs)

theorem looks_cons {c : Component CString} (hnot : ∀ target, t.entry (q.walk c) ≠ .link target) :
    t.looks q (c :: cs) = q :: t.looks (q.walk c) cs := by
  rw [Tree.looks]
  split
  · rename_i target htarget
    exact absurd htarget (hnot target)
  · rfl
  · rfl
  · rfl

theorem stride_cons {c : Component CString} (hdir : t.entry q = .dir) (hshort : overlong c = false)
    (hnot : ∀ target, t.entry (q.walk c) ≠ .link target) :
    t.stride last q (c :: cs) = t.stride last (q.walk c) cs := by
  rw [Tree.stride, hdir]
  simp only [hshort, Bool.false_eq_true, if_false]
  split
  · rename_i target htarget
    exact absurd htarget (hnot target)
  · rfl
  · rfl
  · rfl

theorem stride_dir {c : Component CString} (hpasses : ∀ errno, t.stride last q (c :: cs) ≠ .barred errno) :
    t.entry q = .dir ∧ overlong c = false := by
  have hdir : t.entry q = .dir := by
    cases hentry : t.entry q with
    | dir => rfl
    | absent => exact absurd (by rw [Tree.stride, hentry]) (hpasses enoent)
    | file k => exact absurd (by rw [Tree.stride, hentry]) (hpasses enotdir)
    | link target => exact absurd (by rw [Tree.stride, hentry]) (hpasses enotdir)
  refine ⟨hdir, ?_⟩
  rw [← Bool.not_eq_true]
  intro hlong
  exact hpasses enametoolong (by simp only [Tree.stride, hdir, if_pos hlong])

/-- A stride that is not barred is made again as long as the names it looks at stay. -/
theorem stride_stays (hstays : ∀ l ∈ t.looks q cs, Stays t t' l)
    (hpasses : ∀ errno, t.stride last q cs ≠ .barred errno) :
    t'.stride last q cs = t.stride last q cs := by
  induction cs generalizing q with
  | nil => rfl
  | cons c cs ih =>
    have hself := hstays q (mem_looks_self t q _)
    have hnext := hstays _ (mem_looks_next t q c cs)
    obtain ⟨hdir, hshort⟩ := stride_dir hpasses
    have hturn : ∀ target, t.entry (q.walk c) = .link target →
        t'.stride last q (c :: cs) = t.stride last q (c :: cs) := by
      intro target htarget
      simp only [Tree.stride, hself.dir hdir, hdir, hshort, htarget, hnext.link.mpr htarget]
    have hgo : (∀ target, t.entry (q.walk c) ≠ .link target) →
        t'.stride last q (c :: cs) = t.stride last q (c :: cs) := by
      intro hnot
      have hfirst : t.stride last q (c :: cs) = t.stride last (q.walk c) cs :=
        stride_cons hdir hshort hnot
      have hlooks : t.looks q (c :: cs) = q :: t.looks (q.walk c) cs := looks_cons hnot
      have hnot' : ∀ target, t'.entry (q.walk c) ≠ .link target := fun target htarget =>
        hnot target (hnext.link.mp htarget)
      rw [stride_cons (hself.dir hdir) hshort hnot', hfirst]
      apply ih
      · intro l hl
        exact hstays l (hlooks ▸ List.mem_cons_of_mem q hl)
      · intro errno
        rw [← hfirst]
        exact hpasses errno
    cases hentry : t.entry (q.walk c) with
    | link target => exact hturn target hentry
    | _ => exact hgo (by simp [hentry])

/-- A way that leads somewhere leads there as long as the names on it stay. -/
theorem lead_stays {n : Nat} (hstays : ∀ l ∈ t.way last n q cs, Stays t t' l)
    (hl : t.lead last n q cs = .ok l) : t'.lead last n q cs = .ok l := by
  induction n generalizing q cs with
  | zero => contradiction
  | succ n ih =>
    have hpasses : ∀ errno, t.stride last q cs ≠ .barred errno := by
      intro errno hbarred
      rw [Tree.lead, hbarred] at hl
      contradiction
    have hstride : t'.stride last q cs = t.stride last q cs :=
      stride_stays (fun m hm => hstays m (List.mem_append_left _ hm)) hpasses
    rw [Tree.lead] at hl ⊢
    rw [hstride]
    cases hs : t.stride last q cs with
    | arrived m => rwa [hs] at hl
    | barred errno => exact absurd hs (hpasses errno)
    | turned q' cs' =>
      rw [hs] at hl
      refine ih (fun m hm => hstays m ?_) hl
      rw [Tree.way, hs]
      exact List.mem_append_right _ hm

end Ways

end FileServer

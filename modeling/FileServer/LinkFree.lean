import FileServer.FileTransfer
import FileServer.LinkedPaths

/-!
# Trees without links

A tree in which no name is a link and every file has one name is told apart from the
files of `FileSystem` by its numbers alone: it numbers its files as they are made, where
`FileSystem` counts those made under each name. Workers give the same answers on both.
-/

namespace FileServer

open LexicalPath
set_option autoImplicit false

def Node.entry (number : Nat → Nat) : Node → TreeEntry
  | .absent => .absent
  | .dir => .dir
  | .file k => .file (number k)

/-- `number q k` is what the tree calls the file that was made at `q` after `k` others. -/
structure Mirrors (number : Location → Nat → Nat) (files : Files) (t : Tree) : Prop where
  entry : ∀ q, t.entry q = (files.node q).entry (number q)
  content : ∀ q k bytes, (files.view q).inodes[k]? = some bytes →
    number q k < t.next ∧ t.contents (number q k) = bytes
  distinct : ∀ q k q' k', k < (files.view q).inodes.length → k' < (files.view q').inodes.length →
    number q k = number q' k' → q = q' ∧ k = k'
  sound : files.Sound

def Handle.renamed (number : Nat → Nat) (h : Handle) : Handle := { h with inode := h.inode.map number }

/-- A handle on a file that was made at `q`. -/
def Handle.Made (files : Files) (q : Location) (h : Handle) : Prop :=
  ∀ k, h.inode = some k → k < (files.view q).inodes.length

def CallAnswer.renamed (number : Nat → Nat) (a : CallAnswer) : CallAnswer :=
  { a with handle := a.handle.renamed number }

def Op.renamed (number : Nat → Nat) : Op → Op
  | .fread h => .fread (h.renamed number)
  | .fwrite h block => .fwrite (h.renamed number) block
  | op => op

def Op.Made (files : Files) (q : Location) : Op → Prop
  | .fread h | .fwrite h _ => h.Made files q
  | _ => True

def Request.renamed (cwd : List CString) (number : Location → Nat → Nat) (r : Request) : Request :=
  { r with op := r.op.renamed (number (locate cwd r.path)) }

theorem follow_trimSlashes (q : Location) (path : CString) :
    q.follow (components (trimSlashes path)) = q.follow (components path) := by
  induction path using List.reverseRecOn with
  | nil => rfl
  | append_singleton path c ih =>
    rcases eq_or_ne c slash with rfl | hne
    · rw [trimSlashes, List.rdropWhile_concat_pos _ _ _ (by simp), components_slash]
      rw [trimSlashes] at ih
      rw [ih, Place.follow, Place.follow, List.foldl_append]
      rfl
    · rw [trimSlashes, List.rdropWhile_concat_neg _ _ _ (by simpa using hne)]

section Paths
variable {files : Files} {cwd : List CString} {path : CString} {q : Location}

theorem barred_here {cs : List (Component CString)} (hpasses : files.barred q cs = none) :
    files.barred q (cs ++ [.here]) = match files.node (q.follow cs) with
      | .dir => none
      | .absent => some enoent
      | .file _ => some enotdir := by
  rw [barred_append, hpasses, Option.none_or, Files.barred]
  cases files.node (q.follow cs) <;> rfl

/-- What the slashes at the end of a path add. -/
theorem barred_trimSlashes (hlast : path.getLast? = some slash) :
    files.barred q (components path) = (files.barred q (components (trimSlashes path))).or
      (match files.node (q.follow (components path)) with
        | .dir => none
        | .absent => some enoent
        | .file _ => some enotdir) := by
  induction path using List.reverseRecOn with
  | nil => contradiction
  | append_singleton path c ih =>
    obtain rfl : c = slash := by simpa using hlast
    have htrim : trimSlashes (path ++ [slash]) = trimSlashes path :=
      List.rdropWhile_concat_pos _ _ _ (by simp)
    have hend : q.follow (components (path ++ [slash])) = q.follow (components path) := by
      rw [components_slash, Place.follow, List.foldl_append]
      rfl
    rw [htrim, hend, components_slash]
    by_cases hagain : path.getLast? = some slash
    · have hpath := ih hagain
      cases hbarred : files.barred q (components path) with
      | some errno => rw [barred_append, hbarred, ← hpath, hbarred, Option.some_or]
      | none =>
        rw [hbarred] at hpath
        have hshort := (Option.or_eq_none_iff.mp hpath.symm).1
        rw [barred_here hbarred, hshort, Option.none_or]
    · rw [trimSlashes_of_getLast hagain]
      cases hbarred : files.barred q (components path) with
      | some errno => rw [barred_append, hbarred, Option.some_or, Option.some_or]
      | none => rw [barred_here hbarred, Option.none_or]

end Paths

section Leads
variable {number : Location → Nat → Nat} {files : Files} {t : Tree} {cwd : List CString}
  {path : CString}

theorem Node.entry_not_link (f : Nat → Nat) (n : Node) (target : CString) :
    n.entry f ≠ .link target := by
  cases n <;> simp [Node.entry]

theorem Mirrors.stride (h : Mirrors number files t) (last : Bool) (q : Location)
    (cs : List (Component CString)) :
    t.stride last q cs = match files.barred q cs with
      | some errno => .barred errno
      | none => .arrived (q.follow cs) := by
  induction cs generalizing q with
  | nil => rfl
  | cons c cs ih =>
    rw [Tree.stride, h.entry q, Files.barred]
    cases files.node q with
    | absent => rfl
    | file k => rfl
    | dir =>
      simp only [Node.entry]
      cases hlong : overlong c with
      | true => simp
      | false =>
        simp only [Bool.false_eq_true, if_false]
        have hnot := Node.entry_not_link (number (q.walk c)) (files.node (q.walk c))
        rw [← h.entry] at hnot
        split
        · rename_i target htarget
          exact absurd htarget (hnot target)
        · exact ih (q.walk c)
        · exact ih (q.walk c)
        · exact ih (q.walk c)

theorem Mirrors.lead (h : Mirrors number files t) (last : Bool) (q : Location)
    (cs : List (Component CString)) :
    t.lead last strides q cs = match files.barred q cs with
      | some errno => .error errno
      | none => .ok (q.follow cs) := by
  rw [strides, Tree.lead, h.stride last q cs]
  cases files.barred q cs <;> rfl

theorem Mirrors.target (h : Mirrors number files t) :
    t.target cwd path = match files.barred (origin cwd path) (components path) with
      | some errno => .error errno
      | none => .ok (locate cwd path) := h.lead true _ _

theorem Mirrors.nameAt (h : Mirrors number files t) :
    t.nameAt cwd path = match files.barred (origin cwd path) (components (trimSlashes path)) with
      | some errno => .error errno
      | none => .ok (locate cwd path) := by
  rw [Tree.nameAt, h.lead false, follow_trimSlashes]
  rfl

end Leads

section Updates
variable {number : Location → Nat → Nat} {files : Files} {t : Tree}

/-- The cell at `l` is given another node, which is no file. -/
theorem Mirrors.set (h : Mirrors number files t) (l : Location) {n : Node} (hn : ∀ k, n ≠ .file k) :
    Mirrors number (files.set l { files.view l with node := n }) (t.set l (n.entry (number l))) := by
  have hinodes : ∀ q, ((files.set l { files.view l with node := n }).view q).inodes =
      (files.view q).inodes := by
    intro q
    rw [view_set]
    split
    · rename_i hq
      rw [hq]
    · rfl
  refine ⟨?_, ?_, ?_, ?_⟩
  · intro q
    rw [Tree.entry_set, node_set]
    split
    · rfl
    split
    · rename_i hq
      rw [hq]
    · exact h.entry q
  · intro q k bytes hk
    rw [hinodes] at hk
    exact h.content q k bytes hk
  · intro q k q' k' hk hk'
    rw [hinodes] at hk hk'
    exact h.distinct q k q' k' hk hk'
  · intro q k hk
    rw [hinodes]
    rw [node_set] at hk
    split at hk
    · contradiction
    split at hk
    · exact absurd hk (hn k)
    · exact h.sound q k hk

theorem Mirrors.put (h : Mirrors number files t) {l : Location} {k : Nat} (bytes : List Byte)
    (hk : k < (files.view l).inodes.length) :
    Mirrors number (files.set l { files.view l with inodes := (files.view l).inodes.set k bytes })
      (t.put (number l k) bytes) := by
  have hlength : ∀ q, ((files.set l
      { files.view l with inodes := (files.view l).inodes.set k bytes }).view q).inodes.length =
        (files.view q).inodes.length := by
    intro q
    rw [view_set]
    split
    · rename_i hq
      rw [hq, List.length_set]
    · rfl
  have hnode : ∀ q, (files.set l
      { files.view l with inodes := (files.view l).inodes.set k bytes }).node q = files.node q := by
    intro q
    rw [node_set]
    split
    · rename_i hnames
      rw [Files.node, if_pos hnames]
    split
    · rename_i hnames hq
      rw [Files.node, if_neg hnames, hq]
    · rfl
  refine ⟨?_, ?_, ?_, ?_⟩
  · intro q
    rw [hnode]
    exact h.entry q
  · intro q k' bytes' hk'
    have hlt : k' < (files.view q).inodes.length := by
      rw [← hlength]
      exact (List.getElem?_eq_some_iff.mp hk').1
    refine ⟨(h.content q k' _ (List.getElem?_eq_getElem hlt)).1, ?_⟩
    rw [view_set] at hk'
    by_cases hsame : number q k' = number l k
    · obtain ⟨rfl, rfl⟩ := h.distinct q k' l k hlt hk hsame
      rw [if_pos rfl, List.getElem?_set_self hlt] at hk'
      rw [← Option.some.inj hk']
      exact Function.update_self _ _ _
    · have hold : (files.view q).inodes[k']? = some bytes' := by
        split at hk'
        · rename_i hq
          subst hq
          rwa [List.getElem?_set_ne fun heq => hsame (congrArg (number q) heq.symm)] at hk'
        · exact hk'
      rw [← (h.content q k' bytes' hold).2]
      exact Function.update_of_ne hsame _ _
  · intro q k' q' k'' hk' hk''
    rw [hlength] at hk' hk''
    exact h.distinct q k' q' k'' hk' hk''
  · intro q k' hk'
    rw [hlength]
    rw [hnode] at hk'
    exact h.sound q k' hk'

/-- The numbers once a file has been made at `l`. -/
def numberNext (number : Location → Nat → Nat) (files : Files) (t : Tree) (l q : Location) (k : Nat) :
    Nat :=
  if q = l ∧ k = (files.view l).inodes.length then t.next else number q k

theorem numberNext_old {l q : Location} {k : Nat} (hk : k < (files.view q).inodes.length) :
    numberNext number files t l q k = number q k := by
  rw [numberNext, if_neg]
  rintro ⟨rfl, rfl⟩
  exact Nat.lt_irrefl _ hk

theorem numberNext_new (l : Location) :
    numberNext number files t l l (files.view l).inodes.length = t.next := if_pos ⟨rfl, rfl⟩

theorem Mirrors.fresh (h : Mirrors number files t) {q : Location} {k : Nat}
    (hk : k < (files.view q).inodes.length) : number q k < t.next :=
  (h.content q k _ (List.getElem?_eq_getElem hk)).1

/-- The cell at `l` once a file has been made there. -/
def Files.newCell (files : Files) (l : Location) : Cell :=
  ⟨.file (files.view l).inodes.length, (files.view l).inodes ++ [[]]⟩

/-- A file that is there now was there before or is the new one. -/
theorem newCell_cases {l q : Location} {k : Nat}
    (hk : k < ((files.set l (files.newCell l)).view q).inodes.length) :
    k < (files.view q).inodes.length ∨ (q = l ∧ k = (files.view l).inodes.length) := by
  rw [view_set] at hk
  split at hk
  · rename_i hq
    subst hq
    rw [Files.newCell, List.length_append, List.length_singleton] at hk
    rcases Nat.lt_succ_iff_lt_or_eq.mp hk with hold | hnew
    · exact Or.inl hold
    · exact Or.inr ⟨rfl, hnew⟩
  · exact Or.inl hk

theorem newCell_content (h : Mirrors number files t) {l q : Location} {k : Nat} {bytes : List Byte}
    (hk : ((files.set l (files.newCell l)).view q).inodes[k]? = some bytes) :
    numberNext number files t l q k < (t.create l).next ∧
      (t.create l).contents (numberNext number files t l q k) = bytes := by
  rcases newCell_cases (List.getElem?_eq_some_iff.mp hk).1 with hold | ⟨rfl, rfl⟩
  · have hbefore : (files.view q).inodes[k]? = some bytes := by
      rw [view_set] at hk
      split at hk
      · rename_i hq
        subst hq
        rwa [Files.newCell, List.getElem?_append_left hold] at hk
      · exact hk
    obtain ⟨hlt, hbytes⟩ := h.content q k bytes hbefore
    rw [numberNext_old hold]
    refine ⟨Nat.lt_succ_of_lt hlt, ?_⟩
    rw [← hbytes]
    exact Function.update_of_ne (Nat.ne_of_lt hlt) _ _
  · rw [view_set, if_pos rfl, Files.newCell, List.getElem?_append_right (Nat.le_refl _),
      Nat.sub_self] at hk
    rw [numberNext_new]
    refine ⟨Nat.lt_succ_self _, ?_⟩
    rw [← Option.some.inj hk]
    exact Function.update_self _ _ _

theorem numberNext_distinct (h : Mirrors number files t) {l q q' : Location} {k k' : Nat}
    (hk : k < ((files.set l (files.newCell l)).view q).inodes.length)
    (hk' : k' < ((files.set l (files.newCell l)).view q').inodes.length)
    (heq : numberNext number files t l q k = numberNext number files t l q' k') :
    q = q' ∧ k = k' := by
  rcases newCell_cases hk with hold | ⟨rfl, rfl⟩
  · rw [numberNext_old hold] at heq
    rcases newCell_cases hk' with hold' | ⟨rfl, rfl⟩
    · rw [numberNext_old hold'] at heq
      exact h.distinct q k q' k' hold hold' heq
    · rw [numberNext_new] at heq
      exact absurd heq (Nat.ne_of_lt (h.fresh hold))
  · rw [numberNext_new] at heq
    rcases newCell_cases hk' with hold' | ⟨rfl, rfl⟩
    · rw [numberNext_old hold'] at heq
      exact absurd heq.symm (Nat.ne_of_lt (h.fresh hold'))
    · exact ⟨rfl, rfl⟩

theorem Mirrors.create (h : Mirrors number files t) (l : Location) :
    Mirrors (numberNext number files t l) (files.set l (files.newCell l)) (t.create l) := by
  refine ⟨?_, fun _ _ _ => newCell_content h, fun _ _ _ _ => numberNext_distinct h, ?_⟩
  · intro q
    rw [Tree.entry_create, node_set]
    split
    · rfl
    split
    · rename_i hq
      rw [hq, Files.newCell, Node.entry, numberNext_new]
    · rename_i hq
      rw [h.entry q]
      cases hnode : files.node q with
      | file k => rw [Node.entry, Node.entry, numberNext_old (h.sound q k hnode)]
      | _ => rfl
  · intro q k hk
    rw [node_set] at hk
    rw [view_set]
    split at hk
    · contradiction
    split at hk
    · rename_i hq
      obtain rfl := Node.file.inj hk
      simp [hq, Files.newCell]
    · rename_i hq
      rw [if_neg hq]
      exact h.sound q k hk

end Updates

section Calls
variable {number : Location → Nat → Nat} {files : Files} {t : Tree} {cwd : List CString}
  {path : CString} {fault : Option Fault}

/-- The tree answers as the files do, up to the numbers, and mirrors them again. -/
def AnswersAlike (number : Location → Nat → Nat) (files : Files) (q : Location)
    (out : CallAnswer × Files) (out' : CallAnswer × Tree) : Prop :=
  ∃ number' : Location → Nat → Nat,
    (∀ q k, k < (files.view q).inodes.length → number' q k = number q k) ∧
    Mirrors number' out.2 out'.2 ∧ out'.1 = out.1.renamed (number' q) ∧
    out.1.handle.Made out.2 q

theorem AnswersAlike.same {q : Location} {a : CallAnswer} {a' : CallAnswer} {out : Files} {out' : Tree}
    (h : Mirrors number out out') (ha : a' = a.renamed (number q)) (hmade : a.handle.Made out q) :
    AnswersAlike number files q (a, out) (a', out') := ⟨number, fun _ _ _ => rfl, h, ha, hmade⟩

theorem made_none {q : Location} {h : Handle} (hnone : h.inode = none) : h.Made files q := by
  intro k hk
  rw [hnone] at hk
  contradiction

theorem made_some {q : Location} {h : Handle} {k : Nat} (hsome : h.inode = some k)
    (hk : k < (files.view q).inodes.length) : h.Made files q := by
  intro k' hk'
  rw [hsome] at hk'
  rwa [← Option.some.inj hk']

theorem Mirrors.contents {q : Location} {k : Nat} (h : Mirrors number files t)
    (hk : k < (files.view q).inodes.length) :
    t.contents (number q k) = (files.view q).inodes.getD k [] := by
  rw [(h.content q k _ (List.getElem?_eq_getElem hk)).2, List.getD_eq_getElem?_getD,
    List.getElem?_eq_getElem hk, Option.getD_some]

theorem AnswersAlike.failed {q : Location} {out : Files} {out' : Tree} (errno : CString)
    (h : Mirrors number out out') :
    AnswersAlike number files q (FileServer.failed errno, out) (FileServer.failed errno, out') :=
  .same h rfl (made_none rfl)

theorem AnswersAlike.succeeded {q : Location} {out : Files} {out' : Tree}
    (h : Mirrors number out out') :
    AnswersAlike number files q (FileServer.succeeded, out) (FileServer.succeeded, out') :=
  .same h rfl (made_none rfl)

theorem fopenRead_alike (h : Mirrors number files t) :
    AnswersAlike number files (locate cwd path) (perform cwd none files ⟨path, .fopenRead⟩)
      (t.perform cwd none ⟨path, .fopenRead⟩) := by
  simp only [perform, respond, Tree.perform, fopenRead, Tree.fopenRead, h.target]
  cases files.barred (origin cwd path) (components path) with
  | some errno => exact .failed errno h
  | none =>
    dsimp only
    rw [h.entry]
    cases hnode : files.node (locate cwd path) with
    | absent => exact .failed enoent h
    | dir => exact .same h rfl (made_none rfl)
    | file k => exact .same h rfl (made_some rfl (h.sound _ _ hnode))

theorem fopenWrite_alike (h : Mirrors number files t) :
    AnswersAlike number files (locate cwd path) (perform cwd none files ⟨path, .fopenWrite⟩)
      (t.perform cwd none ⟨path, .fopenWrite⟩) := by
  simp only [perform, respond, Tree.perform, fopenWrite, Tree.fopenWrite, h.target, h.nameAt]
  by_cases hlast : path.getLast? = some slash
  · rw [if_pos hlast, if_pos hlast]
    cases files.barred (origin cwd path) (components (trimSlashes path)) with
    | some errno => exact .failed errno h
    | none => exact .failed eisdir h
  · rw [if_neg hlast, if_neg hlast, trimSlashes_of_getLast hlast]
    cases files.barred (origin cwd path) (components path) with
    | some errno => exact .failed errno h
    | none =>
      dsimp only
      rw [h.entry]
      cases hnode : files.node (locate cwd path) with
      | dir => exact .failed eisdir h
      | absent =>
        refine ⟨numberNext number files t (locate cwd path), ?_, h.create _, ?_, ?_⟩
        · exact fun q k hk => numberNext_old hk
        · simp [Node.entry, opened, openedOn, CallAnswer.renamed, Handle.renamed, numberNext_new]
        · exact made_some rfl (by simp [view_set])
      | file k =>
        refine .same (h.put [] (h.sound _ _ hnode)) rfl (made_some rfl ?_)
        simpa [view_set] using h.sound _ _ hnode

theorem fread_alike (h : Mirrors number files t) {i : Handle} (hi : i.Made files (locate cwd path)) :
    AnswersAlike number files (locate cwd path) (perform cwd fault files ⟨path, .fread i⟩)
      (t.perform cwd fault ⟨path, .fread (i.renamed (number (locate cwd path)))⟩) := by
  simp only [perform, respond, Tree.perform, fread, Tree.fread, Handle.renamed]
  cases hk : i.inode with
  | none => exact .same h rfl (made_none rfl)
  | some k =>
    simp only [Option.map_some, h.contents (hi k hk)]
    cases fault with
    | none => exact .same h rfl (made_some rfl (hi k hk))
    | some f => exact .same h rfl (made_some rfl (hi k hk))

theorem fwrite_alike (h : Mirrors number files t) {o : Handle} {block : List Byte}
    (ho : o.Made files (locate cwd path)) :
    AnswersAlike number files (locate cwd path) (perform cwd fault files ⟨path, .fwrite o block⟩)
      (t.perform cwd fault ⟨path, .fwrite (o.renamed (number (locate cwd path))) block⟩) := by
  simp only [perform, respond, Tree.perform, fwrite, Tree.fwrite, Handle.renamed]
  cases hk : o.inode with
  | none => exact .failed eisdir h
  | some k =>
    simp only [Option.map_some, h.contents (ho k hk)]
    cases fault with
    | none =>
      refine .same (h.put _ (ho k hk)) rfl (made_some rfl ?_)
      simpa [view_set] using ho k hk
    | some f => exact .failed f.errno (h.put _ (ho k hk))

theorem mkdir_alike (h : Mirrors number files t) :
    AnswersAlike number files (locate cwd path) (perform cwd none files ⟨path, .mkdir⟩)
      (t.perform cwd none ⟨path, .mkdir⟩) := by
  simp only [perform, respond, Tree.perform, mkdir, Tree.mkdir, h.nameAt]
  cases files.barred (origin cwd path) (components (trimSlashes path)) with
  | some errno => exact .failed errno h
  | none =>
    dsimp only
    rw [h.entry]
    cases hnode : files.node (locate cwd path) with
    | absent => exact .succeeded (h.set _ (by simp))
    | dir => exact .failed eexist h
    | file k => exact .failed eexist h

theorem removed_alike (h : Mirrors number files t) :
    AnswersAlike number files (locate cwd path)
      (FileServer.succeeded, files.set (locate cwd path) (removed cwd files path))
      (FileServer.succeeded, t.set (locate cwd path) .absent) := by
  apply AnswersAlike.succeeded
  exact h.set _ (by simp)

theorem Mirrors.isEmpty (h : Mirrors number files t) (d : Location) : t.isEmpty d = files.isEmpty d := by
  rw [Bool.eq_iff_iff, isEmpty_iff, Tree.isEmpty, List.all_eq_true]
  have habsent : ∀ q, isChild d q → (t.entry q = .absent ↔ (files.view q).node = .absent) := by
    intro q hq
    rw [h.entry, node_eq_view hq.1]
    cases (files.view q).node <;> simp [Node.entry]
  constructor
  · intro hall q hq
    rw [← habsent q hq]
    by_contra hpresent
    have hentry := hpresent
    rw [Tree.entry, if_neg hq.1] at hentry
    cases hlookup : t.entries.lookup q with
    | none => simp [hlookup] at hentry
    | some e =>
      obtain ⟨before, after, hentries, -⟩ := List.lookup_eq_some_iff.mp hlookup
      have hmem : (q, e) ∈ t.entries := by simp [hentries]
      simpa [hq, hpresent] using hall _ hmem
  · intro hall e _
    by_cases hq : isChild d e.1
    · simp [(habsent e.1 hq).mpr (hall e.1 hq)]
    · simp [hq]

/-- `unlink` and `remove` fail on the tree where the path is barred, or come to its name. -/
theorem Mirrors.name_cases (h : Mirrors number files t) (cwd : List CString) (path : CString) :
    (∃ errno, files.barred (origin cwd path) (components path) = some errno ∧
      t.unlink cwd path = (FileServer.failed errno, t) ∧
      t.remove cwd path = (FileServer.failed errno, t)) ∨
    (files.barred (origin cwd path) (components path) = none ∧
      t.nameAt cwd path = .ok (locate cwd path) ∧
      ∀ k, files.node (locate cwd path) = .file k → path.getLast? ≠ some slash) := by
  have hname : t.nameAt cwd path = _ := h.nameAt
  by_cases hlast : path.getLast? = some slash
  · have hpath : files.barred (origin cwd path) (components path) =
        (files.barred (origin cwd path) (components (trimSlashes path))).or
          (match files.node (locate cwd path) with
            | .dir => none
            | .absent => some enoent
            | .file _ => some enotdir) := barred_trimSlashes hlast
    rw [hpath, Tree.unlink, Tree.remove, hname]
    cases files.barred (origin cwd path) (components (trimSlashes path)) with
    | some errno => exact Or.inl ⟨errno, rfl, rfl, rfl⟩
    | none =>
      dsimp only
      rw [h.entry]
      cases files.node (locate cwd path) with
      | absent => exact Or.inl ⟨enoent, rfl, rfl, rfl⟩
      | dir => exact Or.inr ⟨rfl, rfl, by simp⟩
      | file k => exact Or.inl ⟨enotdir, rfl, if_pos hlast, if_pos hlast⟩
  · rw [trimSlashes_of_getLast hlast] at hname
    rw [Tree.unlink, Tree.remove, hname]
    cases files.barred (origin cwd path) (components path) with
    | some errno => exact Or.inl ⟨errno, rfl, rfl, rfl⟩
    | none => exact Or.inr ⟨rfl, rfl, fun _ _ => hlast⟩

theorem unlink_alike (h : Mirrors number files t) :
    AnswersAlike number files (locate cwd path) (perform cwd none files ⟨path, .unlink⟩)
      (t.perform cwd none ⟨path, .unlink⟩) := by
  simp only [perform, respond, Tree.perform, unlink]
  rcases h.name_cases cwd path with ⟨errno, hbarred, hunlink, -⟩ | ⟨hpasses, hname, hlast⟩
  · rw [hbarred, hunlink]
    exact .failed errno h
  · rw [hpasses, Tree.unlink, hname]
    dsimp only
    rw [h.entry]
    cases hnode : files.node (locate cwd path) with
    | absent => exact .failed enoent h
    | dir => exact .failed eisdir h
    | file k =>
      simp only [Node.entry, if_neg (hlast k hnode)]
      exact removed_alike h

theorem remove_alike (h : Mirrors number files t) :
    AnswersAlike number files (locate cwd path) (perform cwd none files ⟨path, .remove⟩)
      (t.perform cwd none ⟨path, .remove⟩) := by
  simp only [perform, respond, Tree.perform, remove]
  rcases h.name_cases cwd path with ⟨errno, hbarred, -, hremove⟩ | ⟨hpasses, hname, hlast⟩
  · rw [hbarred, hremove]
    exact .failed errno h
  · rw [hpasses, Tree.remove, hname]
    dsimp only
    rw [h.entry, h.isEmpty]
    cases hnode : files.node (locate cwd path) with
    | absent => exact .failed enoent h
    | file k =>
      simp only [Node.entry, if_neg (hlast k hnode)]
      exact removed_alike h
    | dir =>
      simp only [Node.entry]
      by_cases hdot : (splitSlash (trimSlashes path)).getLast? = some (cstr ".")
      · simp only [if_pos hdot]
        exact .failed einval h
      by_cases hroot : (locate cwd path).names = []
      · simp only [if_neg hdot, if_pos hroot]
        exact .failed ebusy h
      by_cases hempty : files.isEmpty (locate cwd path) = true
      · simp only [if_neg hdot, if_neg hroot, if_pos hempty]
        exact removed_alike h
      · simp only [if_neg hdot, if_neg hroot, if_neg hempty]
        exact .failed enotempty h

theorem chmod_alike (h : Mirrors number files t) :
    AnswersAlike number files (locate cwd path) (perform cwd none files ⟨path, .chmod⟩)
      (t.perform cwd none ⟨path, .chmod⟩) := by
  simp only [perform, respond, Tree.perform, chmod, Tree.chmod, Tree.contentAt, h.target]
  cases files.barred (origin cwd path) (components path) with
  | some errno => exact .failed errno h
  | none =>
    dsimp only
    rw [h.entry, Files.contentAt]
    cases hnode : files.node (locate cwd path) with
    | absent => exact .failed enoent h
    | dir => exact .failed enoent h
    | file k =>
      have hk := h.sound _ _ hnode
      simp only [Node.entry, List.getElem?_eq_getElem hk,
        (h.content _ _ _ (List.getElem?_eq_getElem hk)).2]
      exact .same h rfl (made_none rfl)

/-- Every call is answered alike. -/
theorem perform_alike (h : Mirrors number files t) (cwd : List CString) (fault : Option Fault)
    (r : Request) (hr : r.op.Made files (locate cwd r.path)) :
    AnswersAlike number files (locate cwd r.path) (perform cwd fault files r)
      (t.perform cwd fault (r.renamed cwd number)) := by
  obtain ⟨path, op⟩ := r
  cases op with
  | fread i => exact fread_alike h hr
  | fwrite o block => exact fwrite_alike h hr
  | fopenRead =>
    cases fault with
    | none => exact fopenRead_alike h
    | some f => exact .failed f.errno h
  | fopenWrite =>
    cases fault with
    | none => exact fopenWrite_alike h
    | some f => exact .failed f.errno h
  | mkdir =>
    cases fault with
    | none => exact mkdir_alike h
    | some f => exact .failed f.errno h
  | remove =>
    cases fault with
    | none => exact remove_alike h
    | some f => exact .failed f.errno h
  | unlink =>
    cases fault with
    | none => exact unlink_alike h
    | some f => exact .failed f.errno h
  | chmod =>
    cases fault with
    | none => exact chmod_alike h
    | some f => exact .failed f.errno h
  | plain =>
    cases fault with
    | none => exact .succeeded h
    | some f => exact .failed f.errno h

end Calls

end FileServer

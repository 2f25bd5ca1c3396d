import Mathlib.Algebra.Order.Group.Nat
import FileServer.FileSteps

/-!
# What a call does to the files, and what a copy loop leaves (fs.c, crypto.c)

A library call changes at most the cell at its path, in one of six ways. The loops
of `fs_upload` and `fs_download_path` pass a file through the cipher in blocks of
8192 bytes, the key starting anew with each block: as long as no call fails, the
destination holds the coded prefix of the source that has been read.
-/

namespace FileServer

open LexicalPath
set_option autoImplicit false

/-- A file passed through the cipher block by block. -/
def codeFile (data : List Byte) : List Byte :=
  data.mapIdx fun i b => b ^^^ (cstr "MySecretKey123").getD (i % blockSize % 14) 0

theorem length_encodeData (block : List Byte) : (encodeData block).length = block.length := by
  simp [encodeData, xorCipher]

@[simp] theorem codeFile_nil : codeFile [] = [] := rfl

@[simp] theorem length_codeFile (data : List Byte) : (codeFile data).length = data.length := by
  simp [codeFile]

@[simp] theorem codeFile_codeFile (data : List Byte) : codeFile (codeFile data) = data := by
  apply List.ext_getElem
  · simp
  · intro i h₁ h₂
    simp only [codeFile, List.getElem_mapIdx]
    rw [UInt8.xor_assoc, UInt8.xor_self, UInt8.xor_zero]

theorem codeFile_append {pre block : List Byte} (hpre : blockSize ∣ pre.length)
    (hblock : block.length ≤ blockSize) :
    codeFile (pre ++ block) = codeFile pre ++ encodeData block := by
  rw [codeFile, List.mapIdx_append]
  congr 1
  apply List.ext_getElem
  · simp [encodeData, xorCipher]
  · intro i h₁ h₂
    have hlen : (cstr "MySecretKey123").length = 14 := by decide
    have hi : i < blockSize := by
      simp only [List.length_mapIdx] at h₁
      omega
    have hmod : (i + pre.length) % blockSize = i := by
      obtain ⟨c, hc⟩ := hpre
      rw [hc, Nat.add_mul_mod_self_left, Nat.mod_eq_of_lt hi]
    simp only [encodeData, xorCipher, List.getElem_mapIdx, hmod, hlen]

/-- Every name that stands for a file has contents. -/
def Files.Sound (files : Files) : Prop :=
  ∀ q k, files.node q = .file k → k < (files.view q).inodes.length

def Cell.isSound (c : Cell) : Bool :=
  match c.node with
  | .file k => k < c.inodes.length
  | .absent | .dir => true

theorem sound_of_entries {files : Files} (h : files.entries.all (fun e => e.2.isSound) = true) :
    files.Sound := by
  intro q k hk
  have hnames : q.names ≠ [] := by
    intro hnil
    rw [Files.node, if_pos hnil] at hk
    contradiction
  rw [Files.node, if_neg hnames] at hk
  cases hlookup : files.entries.lookup q with
  | none => simp [Files.view, hlookup] at hk
  | some c =>
    obtain ⟨pre, post, hentries, -⟩ := List.lookup_eq_some_iff.mp hlookup
    have hview : files.view q = c := by simp [Files.view, hlookup]
    have hsound := List.all_eq_true.mp h (q, c) (by simp [hentries])
    rw [hview] at hk ⊢
    simpa [Cell.isSound, hk] using hsound

theorem node_set (files : Files) (q : Location) (c : Cell) (l : Location) :
    (files.set q c).node l =
      if l.names = [] then .dir else if l = q then c.node else files.node l := by
  unfold Files.node
  rw [view_set]
  split
  · rfl
  · split <;> rfl

theorem names_ne_nil {files : Files} {q : Location} {k : Nat} (h : files.node q = .file k) :
    q.names ≠ [] := by
  intro hnil
  rw [Files.node, if_pos hnil] at h
  contradiction

theorem node_eq_view {files : Files} {q : Location} (h : q.names ≠ []) :
    files.node q = (files.view q).node := if_neg h

/-- The cell that a call leaves at its location `q`. -/
inductive Changes (files : Files) (q : Location) : Op → Cell → Prop
  | create : files.node q = .absent →
      Changes files q .fopenWrite
        ⟨.file (files.view q).inodes.length, (files.view q).inodes ++ [[]]⟩
  | truncate {k : Nat} : files.node q = .file k →
      Changes files q .fopenWrite
        { files.view q with inodes := (files.view q).inodes.set k [] }
  | write {h : Handle} {k : Nat} {block : List Byte} (bytes : List Byte) : h.inode = some k →
      Changes files q (.fwrite h block)
        { files.view q with
          inodes := (files.view q).inodes.set k
            (writeAt ((files.view q).inodes.getD k []) h.offset bytes) }
  | mkdir : files.node q = .absent → Changes files q .mkdir { files.view q with node := .dir }
  | remove {k : Nat} : files.node q = .file k →
      Changes files q .remove { files.view q with node := .absent }
  | unlink {k : Nat} : files.node q = .file k →
      Changes files q .unlink { files.view q with node := .absent }
  | rmdir : files.node q = .dir → q.names ≠ [] → files.isEmpty q = true →
      Changes files q .remove { files.view q with node := .absent }

section Calls
variable {cwd : List CString} {files : Files} {path : CString} {r : Request} {fault : Option Fault}
  {c : Cell}

theorem fopenWrite_changes (h : (fopenWrite cwd files path).2 = some c) :
    Changes files (locate cwd path) .fopenWrite c := by
  unfold fopenWrite at h
  split at h
  · contradiction
  split at h
  · contradiction
  dsimp only at h
  split at h
  · contradiction
  · rename_i hnode
    obtain rfl := Option.some.inj h
    exact .create hnode
  · rename_i k hnode
    obtain rfl := Option.some.inj h
    exact .truncate hnode

theorem fwrite_changes {o : Handle} {block : List Byte}
    (h : (fwrite cwd files path fault o block).2 = some c) :
    Changes files (locate cwd path) (.fwrite o block) c := by
  unfold fwrite at h
  split at h
  · contradiction
  · rename_i k hk
    dsimp only at h
    split at h
    · obtain rfl := Option.some.inj h
      exact .write _ hk
    · obtain rfl := Option.some.inj h
      exact .write _ hk

theorem mkdir_changes (h : (mkdir cwd files path).2 = some c) :
    Changes files (locate cwd path) .mkdir c := by
  unfold mkdir at h
  split at h
  · contradiction
  split at h
  · rename_i hnode
    obtain rfl := Option.some.inj h
    exact .mkdir hnode
  · contradiction
  · contradiction

theorem unlink_changes (h : (unlink cwd files path).2 = some c) :
    Changes files (locate cwd path) .unlink c := by
  unfold unlink at h
  split at h
  · contradiction
  split at h
  · contradiction
  · contradiction
  · rename_i k hnode
    obtain rfl := Option.some.inj h
    exact .unlink hnode

theorem remove_changes (h : (remove cwd files path).2 = some c) :
    Changes files (locate cwd path) .remove c := by
  unfold remove at h
  split at h
  · contradiction
  split at h
  · contradiction
  · rename_i k hnode
    obtain rfl := Option.some.inj h
    exact .remove hnode
  · rename_i hnode
    split at h
    · contradiction
    split at h
    · contradiction
    split at h
    · rename_i hnames hempty
      obtain rfl := Option.some.inj h
      exact .rmdir hnode hnames hempty
    · contradiction

theorem respond_changes (h : (respond cwd fault files r).2 = some c) :
    Changes files (locate cwd r.path) r.op c := by
  obtain ⟨path, op⟩ := r
  cases op with
  | fwrite o block => exact fwrite_changes h
  | fopenWrite =>
    cases fault with
    | none => exact fopenWrite_changes h
    | some f => contradiction
  | mkdir =>
    cases fault with
    | none => exact mkdir_changes h
    | some f => contradiction
  | remove =>
    cases fault with
    | none => exact remove_changes h
    | some f => contradiction
  | unlink =>
    cases fault with
    | none => exact unlink_changes h
    | some f => contradiction
  | fread h => contradiction
  | fopenRead => cases fault <;> contradiction
  | chmod => cases fault <;> contradiction
  | plain => cases fault <;> contradiction

theorem perform_changes (cwd : List CString) (fault : Option Fault) (files : Files) (r : Request) :
    (perform cwd fault files r).2 = files ∨
      ∃ c, Changes files (locate cwd r.path) r.op c ∧
        (perform cwd fault files r).2 = files.set (locate cwd r.path) c := by
  unfold perform
  split
  · exact Or.inl rfl
  · rename_i a c h
    have hcell : (respond cwd fault files r).2 = some c := by rw [h]
    exact Or.inr ⟨c, respond_changes hcell, rfl⟩

theorem Changes.inodes_length {q : Location} {op : Op} (h : Changes files q op c) :
    (files.view q).inodes.length ≤ c.inodes.length := by
  cases h <;> simp

theorem Changes.node_file {q : Location} {op : Op} {k : Nat} (h : Changes files q op c)
    (hk : c.node = .file k) (hnames : q.names ≠ []) :
    files.node q = .file k ∨ k < c.inodes.length := by
  cases h with
  | create =>
    right
    obtain rfl := Node.file.inj hk
    simp
  | truncate hnode => exact Or.inl (by rwa [node_eq_view hnames])
  | write => exact Or.inl (by rwa [node_eq_view hnames])
  | _ => contradiction

theorem perform_sound (fault : Option Fault) (r : Request) (h : files.Sound) :
    (perform cwd fault files r).2.Sound := by
  rcases perform_changes cwd fault files r with heq | ⟨c, hc, heq⟩
  · rwa [heq]
  · rw [heq]
    intro q k hk
    rw [node_set] at hk
    rw [view_set]
    split at hk
    · contradiction
    · rename_i hnames
      split at hk
      · rename_i hq
        subst hq
        rw [if_pos rfl]
        rcases hc.node_file hk hnames with hold | hnew
        · exact Nat.lt_of_lt_of_le (h _ k hold) hc.inodes_length
        · exact hnew
      · rename_i hq
        rw [if_neg hq]
        exact h q k hk

theorem perform_fopenRead_ok (h : (perform cwd fault files ⟨path, .fopenRead⟩).1.error = none) :
    ∃ inode, perform cwd fault files ⟨path, .fopenRead⟩ = (opened inode, files) ∧
      ((inode = none ∧ files.node (locate cwd path) = .dir) ∨
        ∃ k, inode = some k ∧ files.node (locate cwd path) = .file k) := by
  cases fault with
  | some f => contradiction
  | none =>
    change (fopenRead cwd files path).error = none at h
    change ∃ inode, (fopenRead cwd files path, files) = _ ∧ _
    unfold fopenRead at h ⊢
    split at h
    · contradiction
    split at h
    · contradiction
    · rename_i hnode
      exact ⟨none, rfl, Or.inl ⟨rfl, hnode⟩⟩
    · rename_i k hnode
      exact ⟨some k, rfl, Or.inr ⟨k, rfl, hnode⟩⟩

theorem fopenWrite_cases (cwd : List CString) (files : Files) (path : CString) :
    (∃ errno, fopenWrite cwd files path = (failed errno, none)) ∨
    (files.node (locate cwd path) = .absent ∧
      fopenWrite cwd files path = (opened (some (files.view (locate cwd path)).inodes.length),
        some ⟨.file (files.view (locate cwd path)).inodes.length,
          (files.view (locate cwd path)).inodes ++ [[]]⟩)) ∨
    ∃ k, files.node (locate cwd path) = .file k ∧
      fopenWrite cwd files path = (opened (some k), some { files.view (locate cwd path) with
        inodes := (files.view (locate cwd path)).inodes.set k [] }) := by
  unfold fopenWrite
  split
  · exact Or.inl ⟨_, rfl⟩
  split
  · exact Or.inl ⟨_, rfl⟩
  dsimp only
  split
  · exact Or.inl ⟨_, rfl⟩
  · rename_i hnode
    exact Or.inr (Or.inl ⟨hnode, rfl⟩)
  · rename_i k hnode
    exact Or.inr (Or.inr ⟨k, hnode, rfl⟩)

theorem fopenWrite_cell (hsound : files.Sound) {m : Nat}
    (h : fopenWrite cwd files path = (opened (some m), some c)) :
    c.node = .file m ∧ c.inodes[m]? = some [] ∧ (locate cwd path).names ≠ [] := by
  rcases fopenWrite_cases cwd files path with ⟨errno, heq⟩ | ⟨hnode, heq⟩ | ⟨k, hnode, heq⟩
  · rw [heq] at h
    simp at h
  · have hnames : (locate cwd path).names ≠ [] := by
      intro hnil
      rw [Files.node, if_pos hnil] at hnode
      contradiction
    rw [heq] at h
    obtain ⟨hm, hc⟩ := Prod.mk.inj h
    obtain rfl := Option.some.inj hc
    obtain rfl : (files.view (locate cwd path)).inodes.length = m := by
      simpa [opened, openedOn] using hm
    exact ⟨rfl, by simp, hnames⟩
  · have hk := hsound _ k hnode
    rw [heq] at h
    obtain ⟨hm, hc⟩ := Prod.mk.inj h
    obtain rfl := Option.some.inj hc
    obtain rfl : k = m := by simpa [opened, openedOn] using hm
    refine ⟨?_, by simp [hk], names_ne_nil hnode⟩
    rw [← hnode, node_eq_view (names_ne_nil hnode)]

theorem perform_fopenWrite_ok (hsound : files.Sound)
    (h : (perform cwd fault files ⟨path, .fopenWrite⟩).1.error = none) :
    ∃ k c, perform cwd fault files ⟨path, .fopenWrite⟩ =
        (opened (some k), files.set (locate cwd path) c) ∧
      c.node = .file k ∧ c.inodes[k]? = some [] ∧ (locate cwd path).names ≠ [] := by
  cases fault with
  | some f => contradiction
  | none =>
    simp only [perform, respond] at h ⊢
    rcases fopenWrite_cases cwd files path with ⟨errno, heq⟩ | ⟨hnode, heq⟩ | ⟨k, hnode, heq⟩
    · rw [heq] at h
      contradiction
    · obtain hcell := fopenWrite_cell hsound heq
      rw [heq]
      exact ⟨_, _, rfl, hcell⟩
    · obtain hcell := fopenWrite_cell hsound heq
      rw [heq]
      exact ⟨_, _, rfl, hcell⟩

end Calls

theorem fileStep_eq {cwd : List CString} {store : UserStore} {p : FileProcess} {r : Request}
    (hr : fileRequest store p.job p.stage = some r) (files : Files) :
    fileStep cwd store p files = ({ p with
      calls := p.calls + 1
      errno := (perform cwd (p.job.faults p.calls) files r).1.error.getD p.errno
      stage := fileResume store p.job
        ((perform cwd (p.job.faults p.calls) files r).1.error.getD p.errno)
        (perform cwd (p.job.faults p.calls) files r).1 p.stage },
      (perform cwd (p.job.faults p.calls) files r).2) := by
  unfold fileStep fileCall
  rw [hr]

/-- `i` reads the file `src` at `a` and `o` writes to the file at `b`, which holds the
first `n` bytes of `src`, coded. -/
structure Copying (files : Files) (a b : Location) (src : List Byte) (n : Nat) (i o : Handle) :
    Prop where
  source : ∃ k, i.inode = some k ∧ (files.view a).inodes[k]? = some src
  copy : ∃ k, o.inode = some k ∧ files.node b = .file k ∧
    (files.view b).inodes[k]? = some (codeFile (src.take n))
  offset : o.offset = n
  aligned : blockSize ∣ n ∨ src.length ≤ n
  bound : n ≤ src.length

section Copy
variable {cwd : List CString} {files files' : Files} {a b : Location} {src block : List Byte}
  {n : Nat} {i o : Handle}

theorem Copying.frame (h : Copying files a b src n i o) (ha : files'.view a = files.view a)
    (hb : files'.view b = files.view b) : Copying files' a b src n i o := by
  refine ⟨?_, ?_, h.offset, h.aligned, h.bound⟩
  · rw [ha]
    exact h.source
  · rw [hb, node_congr hb]
    exact h.copy

theorem Copying.advance (h : Copying files a b src n i o) {i' : Handle} (hi : i'.inode = i.inode) :
    Copying files a b src n i' o :=
  ⟨hi ▸ h.source, h.copy, h.offset, h.aligned, h.bound⟩

/-- The block that `fread` returns when the first `n` bytes have been read. -/
def nextBlock (src : List Byte) (n : Nat) : List Byte := (src.drop n).take blockSize

theorem nextBlock_eq_nil (hn : n ≤ src.length) : nextBlock src n = [] ↔ n = src.length := by
  unfold nextBlock
  rw [← List.length_eq_zero_iff, List.length_take, List.length_drop]
  have hpos : 0 < blockSize := by decide
  omega

theorem Copying.fread {path : CString} (h : Copying files (locate cwd path) b src n i o)
    (hi : i.offset = n) :
    fread cwd files path none i =
      ⟨none, { i with offset := n + (nextBlock src n).length }, nextBlock src n⟩ := by
  obtain ⟨k, hk, hsrc⟩ := h.source
  have hcontent : (files.view (locate cwd path)).inodes.getD k [] = src := by
    rw [List.getD_eq_getElem?_getD, hsrc]
    rfl
  unfold FileServer.fread
  rw [hk]
  simp only [hcontent, hi]
  rfl

theorem writeAt_end (old bytes : List Byte) : writeAt old old.length bytes = old ++ bytes := by
  simp [writeAt]

theorem writeAt_next (haligned : blockSize ∣ n ∨ src.length ≤ n) (hbound : n ≤ src.length)
    (hblock : block = nextBlock src n) (hne : block ≠ []) :
    writeAt (codeFile (src.take n)) n (encodeData block) = codeFile (src.take (n + block.length)) ∧
      (blockSize ∣ n + block.length ∨ src.length ≤ n + block.length) ∧
      n + block.length ≤ src.length := by
  have hlength : block.length ≤ blockSize ∧ n + block.length ≤ src.length := by
    rw [hblock, nextBlock, List.length_take, List.length_drop]
    omega
  have hlt : n < src.length := by
    have := List.length_pos_of_ne_nil hne
    omega
  have hdvd : blockSize ∣ n := haligned.resolve_right (by omega)
  have htake : (src.take n).length = n := by simp [hbound]
  have hgrown : src.take (n + block.length) = src.take n ++ block := by
    have hprefix : block <+: src.drop n := by
      rw [hblock]
      exact List.take_prefix _ _
    rw [List.take_add, ← List.prefix_iff_eq_take.mp hprefix]
  refine ⟨?_, ?_, hlength.2⟩
  · have hat := writeAt_end (codeFile (src.take n)) (encodeData block)
    rw [length_codeFile, htake] at hat
    rw [hat, hgrown, codeFile_append (by rwa [htake]) hlength.1]
  · rw [hblock, nextBlock, List.length_take, List.length_drop]
    rcases Nat.lt_or_ge (src.length - n) blockSize with hshort | hfull
    · right
      omega
    · left
      rw [Nat.min_eq_left hfull]
      exact Nat.dvd_add hdvd (Nat.dvd_refl _)

theorem Copying.fwrite {path : CString} (h : Copying files a (locate cwd path) src n i o)
    (hblock : block = nextBlock src n) (hne : block ≠ []) (hab : a ≠ locate cwd path) :
    ∃ c, fwrite cwd files path none o (encodeData block) =
        (⟨none, { o with offset := n + block.length }, []⟩, some c) ∧
      Copying (files.set (locate cwd path) c) a (locate cwd path) src (n + block.length) i
        { o with offset := n + block.length } := by
  obtain ⟨k, hk, hnode, hcopy⟩ := h.copy
  obtain ⟨hnew, haligned, hbound⟩ := writeAt_next h.aligned h.bound hblock hne
  have hnames : (locate cwd path).names ≠ [] := names_ne_nil hnode
  have hold : (files.view (locate cwd path)).inodes.getD k [] = codeFile (src.take n) := by
    rw [List.getD_eq_getElem?_getD, hcopy]
    rfl
  have hlen := length_encodeData block
  refine ⟨{ files.view (locate cwd path) with
    inodes := (files.view (locate cwd path)).inodes.set k (codeFile (src.take (n + block.length))) },
    ?_, ?_, ?_, rfl, haligned, hbound⟩
  · unfold FileServer.fwrite
    rw [hk]
    simp only [hold, h.offset, hnew, hlen]
  · rw [view_set, if_neg hab]
    exact h.source
  · refine ⟨k, hk, ?_, ?_⟩
    · rw [node_set, if_neg hnames, if_pos rfl, ← hnode, node_eq_view hnames]
    · have hk' : k < (files.view (locate cwd path)).inodes.length :=
        (List.getElem?_eq_some_iff.mp hcopy).1
      rw [view_set, if_pos rfl]
      simp [hk']

theorem copying_start {k m : Nat} {c : Cell} (hi : i.inode = some k)
    (hsrc : (files.view a).inodes[k]? = some src) (hab : a ≠ b) (hnode : c.node = .file m)
    (hempty : c.inodes[m]? = some []) (hnames : b.names ≠ []) :
    Copying (files.set b c) a b src 0 i (openedOn (some m)) := by
  refine ⟨⟨k, hi, ?_⟩, ⟨m, rfl, ?_, ?_⟩, rfl, Or.inl (Nat.dvd_zero _), Nat.zero_le _⟩
  · rw [view_set, if_neg hab]
    exact hsrc
  · rw [node_set, if_neg hnames, if_pos rfl, hnode]
  · rw [view_set, if_pos rfl, List.take_zero, codeFile_nil, hempty]

theorem Copying.complete (h : Copying files a b src src.length i o) :
    files.contentAt b = some (codeFile src) := by
  obtain ⟨k, -, hnode, hcopy⟩ := h.copy
  rw [List.take_length] at hcopy
  rw [Files.contentAt, hnode]
  exact hcopy

end Copy

end FileServer

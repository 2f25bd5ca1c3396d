import FileServer.FileTransfer

/-!
# The storage root, the user directories and the files in them

Where `<root>/<user>` and `<root>/<user>/<relpath>` lead when user and relpath are
single path components, and which directories the calls on these paths need.
-/

namespace FileServer

open LexicalPath
set_option autoImplicit false

/-- A path component that names an entry of its directory. -/
def SingleName (s : CString) : Prop :=
  s ≠ [] ∧ slash ∉ s ∧ s ≠ cstr "." ∧ s ≠ cstr ".."

instance (s : CString) : Decidable (SingleName s) := inferInstanceAs (Decidable (_ ∧ _ ∧ _ ∧ _))

theorem splitSlash_of_notMem {s : CString} (h : slash ∉ s) : splitSlash s = [s] := by
  induction s with
  | nil => rfl
  | cons c cs ih =>
    have hc : c ≠ slash := by
      rintro rfl
      exact h List.mem_cons_self
    rw [splitSlash, if_neg hc, ih fun hcs => h (List.mem_cons_of_mem c hcs)]

theorem SingleName.components {s : CString} (h : SingleName s) :
    components s = [.name s] := by
  obtain ⟨hne, hslash, hdot, hdotdot⟩ := h
  simp [FileServer.components, splitSlash_of_notMem hslash, component, hne, hdot, hdotdot]

theorem components_append (a b : CString) :
    components (a ++ slash :: b) = components a ++ components b := by
  simp [components, splitSlash_append]

theorem origin_append (cwd : List CString) (a b : CString) :
    origin cwd (a ++ slash :: b) = origin cwd (a ++ [slash]) := by
  cases a <;> rfl

/-- Where the storage root is, as `<root>/` leads there. -/
def rootLocation (cwd : List CString) (store : UserStore) : Location :=
  locate cwd (store.storageRoot ++ [slash])

theorem locate_append (cwd : List CString) (a b : CString) :
    locate cwd (a ++ slash :: b) = (locate cwd (a ++ [slash])).follow (components b) := by
  have hhere : components [] = [.here] := rfl
  rw [locate, locate, origin_append, components_append, components_append, follow_append,
    follow_append, hhere]
  rfl

theorem follow_storageRoot (cwd : List CString) (store : UserStore) :
    (origin cwd (store.storageRoot ++ [slash])).follow (components store.storageRoot) =
      rootLocation cwd store := by
  have hhere : components [] = [.here] := rfl
  rw [rootLocation, locate, components_append, follow_append, hhere]
  rfl

section Places
variable {cwd : List CString} {store : UserStore} {user rel : CString}

theorem locate_user (hu : SingleName user) :
    locate cwd (userDirPath store user) = (rootLocation cwd store).descend [user] := by
  rw [userDirPath, locate_append, hu.components]
  rfl

theorem buildUserPath_of_fits (h : (userDirPath store user ++ slash :: rel).length ≤ 511) :
    buildUserPath store user rel = userDirPath store user ++ slash :: rel := by
  have hsplit : store.storageRoot ++ slash :: (user ++ slash :: rel) =
      userDirPath store user ++ slash :: rel := by
    simp [userDirPath]
  rw [buildUserPath, hsplit, snprintf, List.take_of_length_le (by omega)]

theorem locate_key (hu : SingleName user) (hr : SingleName rel) :
    locate cwd (userDirPath store user ++ slash :: rel) =
      (rootLocation cwd store).descend [user, rel] := by
  have hpath : userDirPath store user ++ slash :: rel =
      store.storageRoot ++ slash :: (user ++ slash :: rel) := by
    simp [userDirPath]
  rw [hpath, locate_append, components_append, hu.components, hr.components]
  simp [Place.follow, Place.walk, Place.descend, rootLocation]

theorem userDirectory_of_fits (hu : user.length ≤ 63) :
    userDirectory store user = userDirPath store user := by
  have hroot := store.rootFits
  rw [userDirectory, snprintf, List.take_of_length_le]
  simp only [userDirPath, List.length_append, List.length_cons]
  omega

theorem trimSlashes_of_getLast {path : CString} (h : path.getLast? ≠ some slash) :
    trimSlashes path = path := by
  induction path using List.reverseRecOn with
  | nil => rfl
  | append_singleton path c _ =>
    have hc : c ≠ slash := by
      rintro rfl
      simp at h
    rw [trimSlashes, List.rdropWhile_concat_neg _ _ _ (by simpa using hc)]

theorem SingleName.getLast {s : CString} (h : SingleName s) (pre : CString) :
    (pre ++ slash :: s).getLast? ≠ some slash := by
  obtain ⟨hne, hslash, -⟩ := h
  have hlast : (pre ++ slash :: s).getLast? = s.getLast? := by
    rw [List.getLast?_append_of_ne_nil _ (List.cons_ne_nil _ _), List.getLast?_cons,
      List.getLast?_eq_some_getLast hne]
    rfl
  rw [hlast]
  intro hs
  exact hslash (List.mem_of_getLast? hs)

end Places

section Routes
variable {files files' : Files}

theorem barred_append (q : Location) (cs ds : List (Component CString)) :
    files.barred q (cs ++ ds) = (files.barred q cs).or (files.barred (q.follow cs) ds) := by
  induction cs generalizing q with
  | nil => rfl
  | cons c cs ih =>
    rw [List.cons_append, Files.barred, Files.barred]
    split
    · split
      · rfl
      · exact ih (q.walk c)
    · rfl
    · rfl

/-- A path stays passable as long as the directories it passes stay directories. -/
theorem barred_of_dirs {q : Location} {cs : List (Component CString)}
    (h : ∀ l ∈ route q cs, files.node l = .dir → files'.node l = .dir)
    (hpass : files.barred q cs = none) : files'.barred q cs = none := by
  induction cs generalizing q with
  | nil => rfl
  | cons c cs ih =>
    rw [Files.barred] at hpass ⊢
    split at hpass
    · rename_i hdir
      split at hpass
      · contradiction
      · rename_i hshort
        rw [h q List.mem_cons_self hdir]
        dsimp only
        rw [if_neg hshort]
        exact ih (fun l hl => h l (List.mem_cons_of_mem q hl)) hpass
    · contradiction
    · contradiction

/-- Only `remove` takes a directory away. -/
theorem perform_dir {cwd : List CString} {fault : Option Fault} {r : Request} {l : Location}
    (hdir : files.node l = .dir) (hremove : r.op = .remove → locate cwd r.path ≠ l) :
    (perform cwd fault files r).2.node l = .dir := by
  rcases perform_changes cwd fault files r with heq | ⟨c, hc, heq⟩
  · rw [heq, hdir]
  · rw [heq, node_set]
    split
    · rfl
    · rename_i hnames
      split
      · rename_i hl
        subst hl
        cases hop : r.op with
        | remove => exact absurd rfl (hremove hop)
        | fwrite h block =>
          rw [hop] at hc
          cases hc with
          | write bytes hk =>
            rw [node_eq_view hnames] at hdir
            exact hdir
        | _ =>
          rw [hop] at hc
          cases hc
          all_goals simp_all
      · exact hdir

/-- Only `remove` and `unlink` take a file away. -/
theorem perform_file {cwd : List CString} {fault : Option Fault} {r : Request} {l : Location}
    {k : Nat} (hfile : files.node l = .file k)
    (hremove : r.op = .remove ∨ r.op = .unlink → locate cwd r.path ≠ l) :
    (perform cwd fault files r).2.node l = .file k := by
  rcases perform_changes cwd fault files r with heq | ⟨c, hc, heq⟩
  · rw [heq, hfile]
  · have hnames := names_ne_nil hfile
    rw [heq, node_set, if_neg hnames]
    split
    · rename_i hl
      subst hl
      have hcell : (files.view (locate cwd r.path)).node = .file k := by
        rw [← node_eq_view hnames, hfile]
      cases hop : r.op with
      | remove => exact absurd rfl (hremove (Or.inl hop))
      | unlink => exact absurd rfl (hremove (Or.inr hop))
      | fopenWrite =>
        rw [hop] at hc
        cases hc with
        | create habsent => simp [hfile] at habsent
        | truncate _ => exact hcell
      | fwrite h block =>
        rw [hop] at hc
        cases hc with
        | write bytes _ => exact hcell
      | mkdir =>
        rw [hop] at hc
        cases hc with
        | mkdir habsent => simp [hfile] at habsent
      | fopenRead =>
        rw [hop] at hc
        cases hc
      | fread h =>
        rw [hop] at hc
        cases hc
      | chmod =>
        rw [hop] at hc
        cases hc
      | plain =>
        rw [hop] at hc
        cases hc
    · exact hfile

theorem barred_name {q : Location} {n : CString} (hlength : n.length ≤ 255)
    (hdir : files.node q = .dir) : files.barred q [.name n] = none := by
  have hshort : overlong (.name n) = false := decide_eq_false (Nat.not_lt.mpr hlength)
  rw [Files.barred, hdir]
  simp only [hshort]
  rfl

/-- The path to the storage root passes directories only and ends at one. -/
def RootOpen (cwd : List CString) (store : UserStore) (files : Files) : Prop :=
  files.barred (origin cwd (store.storageRoot ++ [slash]))
    (components (store.storageRoot ++ [slash])) = none

variable {cwd : List CString} {store : UserStore} {user rel : CString}

theorem rootOpen_iff : RootOpen cwd store files ↔
    files.barred (origin cwd (store.storageRoot ++ [slash])) (components store.storageRoot) = none ∧
      files.node (rootLocation cwd store) = .dir := by
  have hhere : components [] = [.here] := rfl
  rw [RootOpen, components_append, hhere, barred_append, Option.or_eq_none_iff, follow_storageRoot]
  refine and_congr_right fun _ => ?_
  rw [Files.barred]
  constructor
  · intro h
    split at h
    · assumption
    · contradiction
    · contradiction
  · intro h
    rw [h]
    rfl

theorem barred_user (hu : SingleName user) (hlength : user.length ≤ 255)
    (hroot : RootOpen cwd store files) :
    files.barred (origin cwd (userDirPath store user)) (components (userDirPath store user)) =
      none := by
  obtain ⟨hpass, hdir⟩ := rootOpen_iff.mp hroot
  rw [userDirPath, origin_append, components_append, barred_append, hpass, Option.none_or,
    follow_storageRoot, hu.components, barred_name hlength hdir]

/-- `mkdir` leaves a directory where there was none and no file. -/
theorem mkdir_dir (hu : SingleName user) (hlength : user.length ≤ 255)
    (hroot : RootOpen cwd store files)
    (hnofile : ∀ k, files.node (locate cwd (userDirPath store user)) ≠ .file k) :
    (perform cwd none files ⟨userDirPath store user, .mkdir⟩).2.node
      (locate cwd (userDirPath store user)) = .dir := by
  have hlast : trimSlashes (userDirPath store user) = userDirPath store user :=
    trimSlashes_of_getLast (hu.getLast _)
  simp only [perform, respond, mkdir, hlast, barred_user hu hlength hroot]
  cases hnode : files.node (locate cwd (userDirPath store user)) with
  | absent =>
    dsimp only
    rw [node_set, if_pos rfl]
    split <;> rfl
  | dir => exact hnode
  | file k => exact absurd hnode (hnofile k)

theorem barred_key (hu : SingleName user) (hr : SingleName rel) (hul : user.length ≤ 255)
    (hrl : rel.length ≤ 255) (hroot : RootOpen cwd store files)
    (hdir : files.node ((rootLocation cwd store).descend [user]) = .dir) :
    files.barred (origin cwd (userDirPath store user ++ slash :: rel))
      (components (userDirPath store user ++ slash :: rel)) = none := by
  have horigin : origin cwd (userDirPath store user ++ slash :: rel) =
      origin cwd (userDirPath store user) := by
    unfold userDirPath
    cases store.storageRoot <;> rfl
  have hend : (origin cwd (userDirPath store user)).follow (components (userDirPath store user)) =
      (rootLocation cwd store).descend [user] := locate_user hu
  rw [horigin, components_append, barred_append, barred_user hu hul hroot, Option.none_or, hend,
    hr.components, barred_name hrl hdir]

end Routes

end FileServer

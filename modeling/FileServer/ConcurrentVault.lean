import FileServer.ClientVault
import FileServer.TaskFootprint

/-!
# File tasks at the same time (worker.c, fs.c)

Any number of workers process uploads, downloads and deletions, and their calls mix in any
order. As long as the tasks that overlap are for different keys, downloads apart, and have
source and temporary files of their own, each task is answered as the map answers its
operation, in the order in which the tasks end, and the storage root holds the map.
-/

namespace FileServer

open LexicalPath Interleaving Runs
set_option autoImplicit false

/-- The task leaves alone what the other one is for and its file next to that. -/
structure Apart (cwd : List CString) (job other : FileJob) : Prop where
  key : job.task.type ≠ .download →
    (job.task.username, job.task.path) ≠ (other.task.username, other.task.path)
  scratch : ∀ path ∈ job.scratch, ∀ path' ∈ other.scratch, locate cwd path ∉ touched cwd path'

/-- The task is as the map needs it, the directory that it would make is there, its temporary
file can be named, and the way to its source does not lead through the storage root. -/
structure Prepared (cwd databaseFiles : List CString) (store : UserStore) (files : Files)
    (task : FileTask) (now : Int) : Prop where
  admissible : Admissible cwd databaseFiles ⟨store, files⟩ task.toTask now
  home : task.type = .upload → store.credentials task.username ≠ none →
    files.node (homeLocation cwd store task.username) = .dir
  temp : task.type = .download → files.node (locate cwd tempDir) = .dir
  named : task.type = .download → (tempPath task.username task.path now).length ≤ 255
  source : task.type = .upload → task.tmpfile ≠ [] ∧
    ∀ l ∈ route (origin cwd task.tmpfile) (components task.tmpfile),
      ¬ StrictlyInside (rootLocation cwd store) l

section Routes
variable {cwd : List CString} {store : UserStore} {files : Files} {q l : Location}
variable {cs ds : List (Component CString)} {user relpath path : CString}

theorem mem_route_append (h : l ∈ route q (cs ++ ds)) : l ∈ route q cs ∨ l ∈ route (q.follow cs) ds := by
  induction cs generalizing q with
  | nil => exact Or.inr h
  | cons c cs ih =>
    rcases List.mem_cons.mp h with rfl | hrest
    · exact Or.inl List.mem_cons_self
    · rcases ih hrest with hfirst | hlast
      · exact Or.inl (List.mem_cons_of_mem q hfirst)
      · exact Or.inr hlast

theorem route_dirs (hpasses : files.barred q cs = none) (h : l ∈ route q cs) :
    files.node l = .dir ∨ l = q.follow cs := by
  induction cs generalizing q with
  | nil => exact Or.inr (List.mem_singleton.mp h)
  | cons c cs ih =>
    rw [Files.barred] at hpasses
    split at hpasses
    · rename_i hdir
      split at hpasses
      · contradiction
      · rcases List.mem_cons.mp h with rfl | hrest
        · exact Or.inl hdir
        · exact ih hpasses hrest
    · contradiction
    · contradiction

theorem barred_ne_eexist : files.barred q cs ≠ some eexist := by
  induction cs generalizing q with
  | nil => nofun
  | cons c cs ih =>
    rw [Files.barred]
    split
    · split
      · decide
      · exact ih
    · decide
    · decide

theorem route_userPath (hroot : RootOpen cwd store files) (hsingle : SingleName user)
    (hrelpath : SingleName relpath)
    (h : l ∈ route (origin cwd (userDirPath store user ++ slash :: relpath))
      (components (userDirPath store user ++ slash :: relpath))) :
    files.node l = .dir ∨ l = homeLocation cwd store user ∨ l = keyLocation cwd store user relpath := by
  obtain ⟨hpasses, hdir⟩ := rootOpen_iff.mp hroot
  have hpath : userDirPath store user ++ slash :: relpath =
      store.storageRoot ++ slash :: (user ++ slash :: relpath) := by
    simp [userDirPath]
  rw [hpath, origin_append, components_append, components_append, hsingle.components,
    hrelpath.components] at h
  rcases mem_route_append h with hfirst | hlast
  · rcases route_dirs hpasses hfirst with hpassed | hend
    · exact Or.inl hpassed
    · rw [hend, follow_storageRoot]
      exact Or.inl hdir
  · rw [follow_storageRoot] at hlast
    simp only [List.cons_append, List.nil_append, route, Place.walk, List.mem_cons,
      List.not_mem_nil, or_false] at hlast
    rcases hlast with rfl | rfl | rfl
    · exact Or.inl hdir
    · exact Or.inr (Or.inl rfl)
    · refine Or.inr (Or.inr ?_)
      simp [keyLocation, Place.descend]

theorem route_userDirectory (hroot : RootOpen cwd store files) (hsingle : SingleName user)
    (hlength : user.length ≤ 63)
    (h : l ∈ route (origin cwd (userDirectory store user)) (components (userDirectory store user))) :
    files.node l = .dir ∨ l = homeLocation cwd store user := by
  obtain ⟨hpasses, hdir⟩ := rootOpen_iff.mp hroot
  rw [userDirectory_of_fits hlength, userDirPath, origin_append, components_append,
    hsingle.components] at h
  rcases mem_route_append h with hfirst | hlast
  · rcases route_dirs hpasses hfirst with hpassed | hend
    · exact Or.inl hpassed
    · rw [hend, follow_storageRoot]
      exact Or.inl hdir
  · rw [follow_storageRoot] at hlast
    simp only [route, Place.walk, List.mem_cons, List.not_mem_nil, or_false] at hlast
    rcases hlast with rfl | rfl
    · exact Or.inl hdir
    · exact Or.inr rfl

theorem trimSlashes_tempDir : trimSlashes tempDir = tempDir := trimSlashes_of_getLast (by decide)

theorem TempRoom.passes (h : TempRoom cwd path files) :
    files.barred (origin cwd tempDir) (components tempDir) = none := by
  have hmade := h.directory
  unfold mkdir at hmade
  rw [trimSlashes_tempDir] at hmade
  cases hbarred : files.barred (origin cwd tempDir) (components tempDir) with
  | none => rfl
  | some errno =>
    rw [hbarred] at hmade
    have hexists : some errno = some eexist := hmade.resolve_left nofun
    exact absurd (hbarred.trans hexists) barred_ne_eexist

theorem route_tempDir (htemp : TempRoom cwd path files) (hdir : files.node (locate cwd tempDir) = .dir)
    (h : l ∈ route (origin cwd tempDir) (components tempDir)) : files.node l = .dir := by
  rcases route_dirs htemp.passes h with hpassed | hend
  · exact hpassed
  · rw [hend]
    exact hdir

theorem route_tempPath {now : Int}
    (h : l ∈ route (origin cwd (tempPath user relpath now)) (components (tempPath user relpath now))) :
    l = ⟨true, 0, cwd⟩ ∨ l = locate cwd (tempPath user relpath now) := by
  have horigin : origin cwd (tempPath user relpath now) = ⟨true, 0, cwd⟩ := by
    rw [origin, tempPath_head, if_neg (by decide)]
  have hcomponents := (tempPath_singleName user relpath now).components
  rw [locate, horigin, hcomponents]
  rw [horigin, hcomponents] at h
  simpa [route, Place.follow] using h

theorem inside_of_isChild {d : Location} (h : isChild d l) (hd : Inside q d) : Inside q l := by
  obtain ⟨hnames, rfl⟩ := h
  rw [Place.up, if_neg hnames] at hd
  exact ⟨hd.1, hd.2.1, hd.2.2.trans (List.dropLast_prefix _)⟩

theorem not_strictlyInside_of_isChild {d : Location} (h : isChild d l) (hd : ¬ Inside q d) :
    ¬ StrictlyInside q l := by
  obtain ⟨hnames, rfl⟩ := h
  rintro ⟨⟨hrooted, hups, hprefix⟩, hne⟩
  apply hd
  rw [Place.up, if_neg hnames]
  refine ⟨hrooted, hups, ?_⟩
  rw [← List.dropLast_append_getLast hnames] at hprefix hne
  rcases List.prefix_concat_iff.mp hprefix with heq | hshort
  · exact absurd heq hne
  · exact hshort

theorem up_keyLocation : (keyLocation cwd store user relpath).up = homeLocation cwd store user := by
  rw [keyLocation, up_descend _ (List.cons_ne_nil _ _)]
  rfl

end Routes

section Owns
variable {cwd databaseFiles : List CString} {store : UserStore} {files mem : Files} {v : Vault}
variable {task other : FileTask} {now now' : Int} {l : Location} {path : CString}

/-- A file task of a worker whose calls all work. -/
def FileTask.job (task : FileTask) (now : Int) : FileJob := quietJob task.toTask now task.isFile

/-- Where the task changes something. -/
def FileJob.owns (cwd : List CString) (store : UserStore) (job : FileJob) : Set Location :=
  {l | ∃ path ∈ job.writes store, l = locate cwd path}

theorem Prepared.key (h : Prepared cwd databaseFiles store files task now) :
    Key databaseFiles task.username task.path :=
  ⟨h.admissible.single, h.admissible.free, (h.admissible.relpath task.isFile).1⟩

theorem Prepared.locate_key (h : Prepared cwd databaseFiles store files task now) :
    locate cwd ((task.job now).userPath store) = keyLocation cwd store task.username task.path :=
  locate_userPath h.admissible.single h.key.relpath (h.admissible.relpath task.isFile).2

theorem Prepared.scratch (h : Prepared cwd databaseFiles store files task now)
    (hpath : path ∈ (task.job now).scratch) :
    ¬ Inside (rootLocation cwd store) (locate cwd path) ∧ files.node (locate cwd path) ≠ .dir := by
  unfold FileJob.scratch at hpath
  split at hpath
  · rename_i htype
    obtain rfl := Option.some.inj hpath
    exact (h.admissible.source htype).2 (h.source htype).1
  · rename_i htype
    obtain rfl := Option.some.inj hpath
    obtain ⟨-, houtside, htemp⟩ := h.admissible.temp htype
    refine ⟨houtside, ?_⟩
    intro hdir
    exact htemp.free (perform_dir hdir nofun)
  · contradiction

theorem Prepared.owns_cases (h : Prepared cwd databaseFiles store files task now)
    (hl : l ∈ (task.job now).owns cwd store) :
    (task.type ≠ .download ∧ l = keyLocation cwd store task.username task.path) ∨
      ∃ path ∈ (task.job now).scratch, l = locate cwd path := by
  obtain ⟨path, hpath, rfl⟩ := hl
  rcases List.mem_append.mp hpath with hkey | hscratch
  · split at hkey
    · contradiction
    · rename_i htype
      obtain rfl := List.mem_singleton.mp hkey
      exact Or.inl ⟨htype, h.locate_key⟩
  · exact Or.inr ⟨path, Option.mem_toList.mp hscratch, rfl⟩

theorem Prepared.owns_not_dir (hstored : Stored cwd databaseFiles ⟨store, files⟩ v)
    (h : Prepared cwd databaseFiles store files task now) (hl : l ∈ (task.job now).owns cwd store) :
    files.node l ≠ .dir := by
  rcases h.owns_cases hl with ⟨-, rfl⟩ | ⟨path, hpath, rfl⟩
  · exact hstored.key_not_dir h.key
  · exact (h.scratch hpath).2

theorem Prepared.clears_not_dir (hstored : Stored cwd databaseFiles ⟨store, files⟩ v)
    (h : Prepared cwd databaseFiles store files task now) :
    files.node ((task.job now).clears cwd store) ≠ .dir := by
  unfold FileJob.clears
  split
  · rename_i htype
    apply (h.scratch ?_).2
    unfold FileJob.scratch
    rw [htype]
    exact rfl
  · rw [h.locate_key]
    exact hstored.key_not_dir h.key

theorem credentials_of_user (hlength : task.username.length ≤ 63)
    (huser : ((task.job now).user store).isSome = true) : store.credentials task.username ≠ none := by
  unfold FileJob.user at huser
  split at huser
  · exact (lockUser_isSome_iff (s := ⟨store, ⟨[]⟩⟩) hlength).mp huser
  · contradiction

theorem Prepared.makes_dir (h : Prepared cwd databaseFiles store files task now)
    (hl : (task.job now).makes cwd store = some l) : files.node l = .dir := by
  unfold FileJob.makes at hl
  split at hl
  · rename_i huser
    split at hl
    · rename_i htype
      obtain rfl := Option.some.inj hl
      rw [show (task.job now).task.username = task.username from rfl,
        locate_userDirectory h.admissible.single h.admissible.username]
      exact h.home htype (credentials_of_user h.admissible.username huser)
    · rename_i htype
      obtain rfl := Option.some.inj hl
      exact h.temp htype
    · contradiction
  · contradiction

theorem Prepared.touched_scratch (h : Prepared cwd databaseFiles store files task now)
    (hpath : path ∈ (task.job now).scratch) (hl : l ∈ touched cwd path) :
    ¬ StrictlyInside (rootLocation cwd store) l := by
  have houtside := (h.scratch hpath).1
  rcases hl with hroute | hchild
  · unfold FileJob.scratch at hpath
    split at hpath
    · rename_i htype
      obtain rfl := Option.some.inj hpath
      exact (h.source htype).2 l hroute
    · obtain rfl := Option.some.inj hpath
      rcases route_tempPath hroute with rfl | rfl
      · intro hinside
        apply houtside
        rw [FileJob.tempPath, locate_tempPath]
        exact ⟨hinside.1.1, hinside.1.2.1, hinside.1.2.2.trans (List.prefix_append _ _)⟩
      · exact fun hinside => houtside hinside.1
    · contradiction
  · exact not_strictlyInside_of_isChild hchild houtside

/-- What the answers to a task can depend on. -/
inductive Seen (cwd : List CString) (store : UserStore) (files : Files) (task : FileTask) (now : Int)
    (l : Location) : Prop
  | dir (h : files.node l = .dir) : Seen cwd store files task now l
  | home (h : l = homeLocation cwd store task.username) : Seen cwd store files task now l
  | key (h : l = keyLocation cwd store task.username task.path) : Seen cwd store files task now l
  | entry (h : isChild (keyLocation cwd store task.username task.path) l) : Seen cwd store files task now l
  | scratch {path : CString} (hpath : path ∈ (task.job now).scratch) (h : l ∈ touched cwd path) :
      Seen cwd store files task now l

theorem Prepared.seen_userPath (hroot : RootOpen cwd store files)
    (h : Prepared cwd databaseFiles store files task now)
    (hl : l ∈ route (origin cwd ((task.job now).userPath store))
      (components ((task.job now).userPath store))) : Seen cwd store files task now l := by
  rw [FileTask.job, quietJob_userPath (s := ⟨store, files⟩) (h.admissible.relpath task.isFile).2] at hl
  rcases route_userPath hroot h.admissible.single h.key.relpath hl with hdir | hhome | hkey
  · exact .dir hdir
  · exact .home hhome
  · exact .key hkey

theorem Prepared.seen_userDirectory (hroot : RootOpen cwd store files)
    (h : Prepared cwd databaseFiles store files task now)
    (hl : l ∈ route (origin cwd (userDirectory store task.username))
      (components (userDirectory store task.username))) : Seen cwd store files task now l := by
  rcases route_userDirectory hroot h.admissible.single h.admissible.username hl with hdir | hhome
  · exact .dir hdir
  · exact .home hhome

theorem Prepared.seen (hroot : RootOpen cwd store files)
    (h : Prepared cwd databaseFiles store files task now)
    (hl : l ∈ (FileProcess.start store (task.job now)).sees cwd store) :
    Seen cwd store files task now l := by
  have hentry : isChild (locate cwd ((task.job now).userPath store)) l →
      Seen cwd store files task now l := by
    rw [h.locate_key]
    exact .entry
  have hbranch := (@firstStage_of store (task.job now)).branch
  unfold FileProcess.sees FileProcess.paths FileProcess.removes FileProcess.start at hl
  dsimp only at hl
  cases hstage : firstStage store (task.job now) with
  | upload s =>
    rw [hstage] at hl hbranch
    have hscratch : task.tmpfile ∈ (task.job now).scratch := by
      rw [FileJob.scratch, show (task.job now).task.type = .upload from hbranch]
      exact rfl
    rcases hl with ⟨path, hpath, hroute⟩ | hchild
    · simp only [List.mem_cons, List.not_mem_nil, or_false] at hpath
      rcases hpath with rfl | rfl | rfl
      · exact .scratch hscratch (Or.inl hroute)
      · exact h.seen_userPath hroot hroute
      · exact h.seen_userDirectory hroot hroute
    · exact hentry hchild
  | download s =>
    rw [hstage] at hl hbranch
    have htype : task.type = .download := hbranch
    have hscratch : (task.job now).tempPath ∈ (task.job now).scratch := by
      rw [FileJob.scratch, show (task.job now).task.type = .download from hbranch]
      exact rfl
    rcases hl with ⟨path, hpath, hroute⟩ | hchild
    · simp only [List.mem_cons, List.not_mem_nil, or_false] at hpath
      rcases hpath with rfl | rfl | rfl
      · exact h.seen_userPath hroot hroute
      · exact .scratch hscratch (Or.inl hroute)
      · exact .dir (route_tempDir (h.admissible.temp htype).2.2 (h.temp htype) hroute)
    · exact .scratch hscratch (Or.inr hchild)
  | delete s =>
    rw [hstage] at hl
    rcases hl with ⟨path, hpath, hroute⟩ | hchild
    · obtain rfl := List.mem_singleton.mp hpath
      exact h.seen_userPath hroot hroute
    · exact hentry hchild

/-- Tasks that are apart own nothing that the other one sees. -/
theorem Prepared.apart (hstored : Stored cwd databaseFiles ⟨store, files⟩ v)
    (h : Prepared cwd databaseFiles store files task now)
    (h' : Prepared cwd databaseFiles store files other now')
    (hapart : Apart cwd (task.job now) (other.job now')) (hl : l ∈ (task.job now).owns cwd store) :
    l ∉ (FileProcess.start store (other.job now')).sees cwd store := by
  intro hsees
  have hnotdir := h.owns_not_dir hstored hl
  have hseen := h'.seen hstored.root hsees
  rcases h.owns_cases hl with ⟨htype, rfl⟩ | ⟨path, hpath, rfl⟩
  · cases hseen with
    | dir hdir => exact hnotdir hdir
    | home hhome => exact homeLocation_ne_key hhome.symm
    | key hkey => exact hapart.key htype (keyLocation_injective hkey)
    | entry hchild =>
      have hup := hchild.2
      rw [up_keyLocation] at hup
      exact homeLocation_ne_key hup
    | scratch hpath htouched => exact h'.touched_scratch hpath htouched inside_key
  · have houtside := (h.scratch hpath).1
    cases hseen with
    | dir hdir => exact hnotdir hdir
    | home hhome => exact ne_of_outside inside_home houtside hhome.symm
    | key hkey => exact ne_of_outside inside_key houtside hkey.symm
    | entry hchild => exact houtside (inside_of_isChild hchild inside_key.1)
    | scratch hpath' htouched => exact hapart.scratch path hpath _ hpath' htouched

end Owns

/-- The directories are those of the files that the tasks have started from. -/
structure SameTree (files mem : Files) : Prop where
  sound : mem.Sound
  dirs : ∀ l, mem.node l = .dir ↔ files.node l = .dir

section Tree
variable {cwd databaseFiles : List CString} {store : UserStore} {files mem : Files} {v : Vault}
variable {task : FileTask} {now : Int} {l : Location} {path : CString} {p : FileProcess}

theorem SameTree.tempRoom (h : SameTree files mem) (hdir : files.node (locate cwd tempDir) = .dir)
    (htemp : TempRoom cwd path files) : TempRoom cwd path mem := by
  have hkept : ∀ {n : Files}, n.node (locate cwd tempDir) = .dir → ∀ l,
      (withTempDirectory cwd n).node l = n.node l := by
    intro n hn l
    apply node_congr
    by_cases hl : l = locate cwd tempDir
    · subst hl
      apply mkdir_keeps
      rw [hn]
      nofun
    · exact perform_view_of_ne hl
  have hmem := (h.dirs _).mpr hdir
  refine ⟨?_, ?_, ?_⟩
  · right
    have hroute : mem.barred (origin cwd tempDir) (components tempDir) = none :=
      barred_of_dirs (fun l _ => (h.dirs l).mpr) htemp.passes
    unfold mkdir
    rw [trimSlashes_tempDir, hroute, hmem]
    rfl
  · rw [hkept hmem, h.dirs, ← hkept hdir]
    exact htemp.here
  · rw [hkept hmem, Ne, h.dirs, ← hkept hdir]
    exact htemp.free

theorem Prepared.later (h : Prepared cwd databaseFiles store files task now)
    (hsame : SameTree files mem) : Prepared cwd databaseFiles store mem task now := by
  obtain ⟨htype, hsingle, hfree, husername, hpassword, hpath, hrelpath, hsource, htemp⟩ := h.admissible
  refine ⟨⟨htype, hsingle, hfree, husername, hpassword, hpath, hrelpath, ?_, ?_⟩, ?_, ?_, h.named,
    h.source⟩
  · intro hupload
    obtain ⟨hsize, hplace⟩ := hsource hupload
    refine ⟨hsize, fun hne => ⟨(hplace hne).1, ?_⟩⟩
    exact fun hdir => (hplace hne).2 ((hsame.dirs _).mp hdir)
  · intro hdownload
    obtain ⟨hnow, houtside, hopens⟩ := htemp hdownload
    exact ⟨hnow, houtside, hsame.tempRoom (h.temp hdownload) hopens⟩
  · exact fun hupload haccount => (hsame.dirs _).mpr (h.home hupload haccount)
  · exact fun hdownload => (hsame.dirs _).mpr (h.temp hdownload)

theorem SameTree.keep {mem' : Files} (hsame : SameTree files mem)
    (hstored : Stored cwd databaseFiles ⟨store, files⟩ v)
    (h : Prepared cwd databaseFiles store files task now)
    (hkept : DirsKept cwd store (task.job now) mem mem') (hsound : mem'.Sound) : SameTree files mem' := by
  refine ⟨hsound, fun l => Iff.trans (hkept.same ?_ ?_ l) (hsame.dirs l)⟩
  · exact fun hdir => h.clears_not_dir hstored ((hsame.dirs _).mp hdir)
  · exact fun k hk => (hsame.dirs k).mpr (h.makes_dir hk)

theorem Prepared.call (hstored : Stored cwd databaseFiles ⟨store, files⟩ v)
    (h : Prepared cwd databaseFiles store files task now) (hsame : SameTree files mem)
    {stage : FileStage} (hstage : stage.Of store (task.job now)) {r : Request} (fault : Option Fault)
    (hr : fileRequest store (task.job now) stage = some r) :
    SameTree files (perform cwd fault mem r).2 ∧
      ∀ l, (perform cwd fault mem r).2.view l ≠ mem.view l → l ∈ (task.job now).owns cwd store := by
  have hstart : DirsKept cwd store (task.job now) mem mem := ⟨fun _ _ hdir => hdir, fun _ _ hno => hno⟩
  refine ⟨hsame.keep hstored h (hstart.perform hstage hr) (perform_sound fault r hsame.sound), ?_⟩
  intro l hview
  rcases perform_writes hstage hr hview with hwrites | ⟨hmakes, hno⟩
  · exact hwrites
  · exact absurd ((hsame.dirs l).mpr (h.makes_dir hmakes)) hno

end Tree

universe u
variable {ι : Type u}

section Statement
variable (cwd : List CString) (store : UserStore) (tasks : ι → FileTask) (now : ι → Int)

def concurrentJobs (i : ι) : FileJob := (tasks i).job (now i)

/-- A task is taken up only while the tasks that are processed are apart from it. -/
def StartsApart (s : FileSystem ι) : Label ι → Prop
  | .start i => ∀ j q, s.status j = .running q →
      Apart cwd (concurrentJobs tasks now i) (concurrentJobs tasks now j) ∧
        Apart cwd (concurrentJobs tasks now j) (concurrentJobs tasks now i)
  | .move _ => True

/-- The task and its responses are those of the visit. -/
def AnsweredBy (s : FileSystem ι) (i : ι) (visit : Served) : Prop :=
  (visit.task = (tasks i).toTask ∧ visit.now = now i) ∧
    ∃ p, s.status i = .ended p ∧ visit.effects = p.responses store

end Statement

section Runs
variable {cwd databaseFiles : List CString} {store : UserStore} {tasks : ι → FileTask} {now : ι → Int}
variable {files m : Files} {v : Vault} {results : List (ι × FileProcess)}

theorem startsApart_owns {s : FileSystem ι} {l : Label ι}
    (hstored : Stored cwd databaseFiles ⟨store, files⟩ v)
    (hprepared : ∀ i, Prepared cwd databaseFiles store files (tasks i) (now i))
    (h : StartsApart cwd tasks now s l) :
    (seeingMachine cwd store).StartsApart (startJob store (concurrentJobs tasks now))
      (fun i => (concurrentJobs tasks now i).owns cwd store) s l := by
  cases l with
  | start i =>
    intro j q hq
    obtain ⟨hij, hji⟩ := h j q hq
    exact ⟨fun l hl => (hprepared i).apart hstored (hprepared j) hij hl,
      fun l hl => (hprepared j).apart hstored (hprepared i) hji hl⟩
  | move i => trivial

/-- Tasks that are apart do not disturb each other. -/
theorem undisturbed_of_startsApart [DecidableEq ι] {s : FileSystem ι}
    (hstored : Stored cwd databaseFiles ⟨store, files⟩ v)
    (hprepared : ∀ i, Prepared cwd databaseFiles store files (tasks i) (now i))
    (h : FilesReached cwd store (concurrentJobs tasks now) files (StartsApart cwd tasks now) s) :
    SameTree files s.mem ∧
      Reached ((seeingMachine cwd store).sysStep (startJob store (concurrentJobs tasks now)))
        ((seeingMachine cwd store).Undisturbed (startJob store (concurrentJobs tasks now)))
        (System.start files) s := by
  have hapart : Reached ((seeingMachine cwd store).sysStep (startJob store (concurrentJobs tasks now)))
      ((seeingMachine cwd store).StartsApart (startJob store (concurrentJobs tasks now))
        fun i => (concurrentJobs tasks now i).owns cwd store) (System.start files) s :=
    h.mono fun _ _ hl => startsApart_owns hstored hprepared hl
  have hstep : ∀ i p mem, SameTree files mem →
      (p.job = concurrentJobs tasks now i ∧ p.stage.Of store (concurrentJobs tasks now i)) →
      (seeingMachine cwd store).done p = false →
      SameTree files ((seeingMachine cwd store).step p mem).2 ∧
        (((seeingMachine cwd store).step p mem).1.job = concurrentJobs tasks now i ∧
          ((seeingMachine cwd store).step p mem).1.stage.Of store (concurrentJobs tasks now i)) ∧
        (seeingMachine cwd store).changes p mem ⊆ (concurrentJobs tasks now i).owns cwd store := by
    rintro i p mem hsame ⟨hjob, hstage⟩ hdone
    obtain ⟨r, hr⟩ : ∃ r, fileRequest store p.job p.stage = some r := by
      rw [← Option.isSome_iff_exists, ← Option.isNone_eq_false_iff]
      exact hdone
    have heq : (seeingMachine cwd store).step p mem = _ := fileStep_eq hr mem
    rw [hjob] at hr
    obtain ⟨htree, howns⟩ := (hprepared i).call hstored hsame hstage (p.job.faults p.calls) hr
    refine ⟨?_, ?_, ?_⟩
    · rw [heq]
      exact htree
    · rw [heq]
      refine ⟨hjob, ?_⟩
      rw [hjob]
      exact fileResume_of hstage hr
    · intro l hl
      apply howns l
      have hview : ((seeingMachine cwd store).step p mem).2.view l ≠ mem.view l := hl
      rwa [heq] at hview
  obtain ⟨howning, hreached⟩ := Machine.undisturbed_of_apart (fun i => ⟨rfl, firstStage_of⟩)
    ⟨hstored.sound, fun _ => Iff.rfl⟩ hstep hapart
  exact ⟨howning.mem, hreached⟩

/-- What the tasks come to that are processed one after the other. -/
structure Outcome (cwd databaseFiles : List CString) (store : UserStore) (tasks : ι → FileTask)
    (now : ι → Int) (files : Files) (v : Vault) (results : List (ι × FileProcess)) (m : Files)
    (visits : List Served) : Prop where
  session : Session cwd databaseFiles ⟨store, files⟩ visits ⟨store, m⟩
  tasks : List.Forall₂ (fun r visit => (visit.task = (tasks r.1).toTask ∧ visit.now = now r.1) ∧
    visit.effects = r.2.responses store) results visits
  replies : List.Forall₂ (Served.Shows cwd) visits (v.replies (visits.map (Served.op cwd)))
  stored : Stored cwd databaseFiles ⟨store, m⟩ (v.after (visits.map (Served.op cwd)))
  tree : SameTree files m

theorem serial_outcome (hstored : Stored cwd databaseFiles ⟨store, files⟩ v)
    (hprepared : ∀ i, Prepared cwd databaseFiles store files (tasks i) (now i))
    (h : (seeingMachine cwd store).Serial (startJob store (concurrentJobs tasks now)) files results m) :
    ∃ visits, Outcome cwd databaseFiles store tasks now files v results m visits := by
  induction h with
  | nil => exact ⟨[], .start, .nil, .nil, hstored, hstored.sound, fun _ => Iff.rfl⟩
  | @snoc results m m' i p _ hexec hdone ih =>
    obtain ⟨visits, hsession, htasks, hreplies, hnow, htree⟩ := ih
    have hexec' : (fileMachine cwd store).Exec (.start store ((tasks i).job (now i))) m p m' :=
      hexec.of_narrow
    have hserves : Serves cwd ⟨store, m⟩ (tasks i).toTask (now i) (p.responses store) ⟨store, m'⟩ :=
      .file (tasks i).isFile hexec' hdone
    have hadmissible := ((hprepared i).later htree).admissible
    have hnamed : ¬ Misnamed (v.after (visits.map (Served.op cwd))) (tasks i).toTask (now i) :=
      fun ⟨htype, _, hlong⟩ => absurd ((hprepared i).named htype) (Nat.not_le.mpr hlong)
    obtain ⟨hanswers, hnext⟩ := hserves.refines hnow hadmissible hnamed
    refine ⟨visits ++ [⟨(tasks i).toTask, now i, ⟨store, m⟩, p.responses store, ⟨store, m'⟩⟩],
      hsession.task hadmissible hserves, ?_, ?_, ?_, ?_⟩
    · exact List.rel_append htasks (.cons ⟨⟨rfl, rfl⟩, rfl⟩ .nil)
    · rw [List.map_append, List.map_singleton, Vault.replies_append]
      exact List.rel_append hreplies (.cons hanswers .nil)
    · rw [List.map_append, List.map_singleton, Vault.after_append]
      exact hnext
    · exact htree.keep hstored (hprepared i) (exec_dirsKept hexec') hnext.sound

/-- Tasks that overlap only with tasks that are apart from them are answered as the map answers
their operations in the order in which they end, as if they were processed one after another,
and the storage root then holds the map. -/
theorem concurrent_tasks_refine_vault [DecidableEq ι] (cwd databaseFiles : List CString)
    (store : UserStore) (files : Files) (v : Vault) (tasks : ι → FileTask) (now : ι → Int)
    (hstored : Stored cwd databaseFiles ⟨store, files⟩ v)
    (hprepared : ∀ i, Prepared cwd databaseFiles store files (tasks i) (now i)) (s : FileSystem ι)
    (h : FilesReached cwd store (concurrentJobs tasks now) files (StartsApart cwd tasks now) s)
    (hidle : ∀ i p, s.status i ≠ .running p) :
    ∃ visits files', Session cwd databaseFiles ⟨store, files⟩ visits ⟨store, files'⟩ ∧
      List.Forall₂ (AnsweredBy store tasks now s) s.order visits ∧
      List.Forall₂ (Served.Shows cwd) visits (v.replies (visits.map (Served.op cwd))) ∧
      Stored cwd databaseFiles ⟨store, s.mem⟩ (v.after (visits.map (Served.op cwd))) ∧
      ∀ l, s.mem.contentAt l = files'.contentAt l := by
  obtain ⟨htree, hundisturbed⟩ := undisturbed_of_startsApart hstored hprepared h
  obtain ⟨results, m, hordered⟩ := Machine.ordered_of_reached hundisturbed
  obtain ⟨visits, houtcome⟩ := serial_outcome hstored hprepared hordered.serial
  have hview : ∀ l, s.mem.view l = m.view l := by
    intro l
    apply hordered.settled
    intro i p hp
    exact absurd hp (hidle i p)
  refine ⟨visits, m, houtcome.session, ?_, houtcome.replies, ?_, fun l => contentAt_congr (hview l)⟩
  · rw [← hordered.names, List.forall₂_map_left_iff]
    have hended : ∀ r ∈ results, s.status r.1 = .ended r.2 :=
      fun r hr => (hordered.ended r.1 r.2).mpr hr
    apply ((List.forall₂_and_left results visits).mpr ⟨hended, houtcome.tasks⟩).imp
    rintro r visit ⟨hr, htask, heffects⟩
    exact ⟨htask, r.2, hr, heffects⟩
  · apply houtcome.stored.outside
    refine ⟨htree.sound, ?_, fun l _ _ => hview l⟩
    refine rootOpen_of_dirs ?_ houtcome.stored.root
    intro l hdir
    rwa [node_congr (hview l)]

end Runs

def memoFiles : Files :=
  aliceEnrolled.files.set (locate [cstr "srv"] (cstr "memo")) ⟨.file 0, [cstr "ho"]⟩

def noteUpload : FileTask := ⟨noteTask .upload, Or.inl rfl⟩

def memoUpload : FileTask :=
  ⟨{ noteTask .upload with path := cstr "m", tmpfile := cstr "memo" }, Or.inl rfl⟩

inductive Note where
  | note
  | memo
  deriving DecidableEq

def noteAndMemo : Note → FileTask
  | .note => noteUpload
  | .memo => memoUpload

def takingTurns : List (Label Note) := (List.replicate 13 [.move .note, .move .memo]).flatten

def noteAndMemoTogether : Option (FileSystem Note) :=
  exec ((fileMachine [cstr "srv"] aliceEnrolled.store).sysStep
      (startJob aliceEnrolled.store (concurrentJobs noteAndMemo fun _ => 5)))
    (System.start memoFiles) (.start .note :: .start .memo :: takingTurns)

theorem takingTurns_apart : ∀ l ∈ takingTurns, ∀ s,
    StartsApart [cstr "srv"] noteAndMemo (fun _ => 5) s l := by
  intro l hl
  obtain ⟨labels, hlabels, hmem⟩ := List.mem_flatten.mp hl
  rw [List.eq_of_mem_replicate hlabels] at hmem
  rcases List.mem_pair.mp hmem with rfl | rfl
  · exact fun _ => trivial
  · exact fun _ => trivial

theorem memoFiles_stored : ∃ v,
    Stored [cstr "srv"] [cstr "users.db"] ⟨aliceEnrolled.store, memoFiles⟩ v := by
  obtain ⟨v, hstored, -⟩ := aliceEnrolled_stored
  have hroot : RootOpen [cstr "srv"] aliceEnrolled.store memoFiles := by
    unfold RootOpen
    decide +kernel
  refine ⟨v, hstored.outside ⟨sound_of_entries (by decide +kernel), hroot, ?_⟩⟩
  intro l hl _
  rw [memoFiles, view_set, if_neg]
  exact ne_of_outside hl (by decide +kernel)

theorem noteAndMemo_prepared : ∀ i, Prepared [cstr "srv"] [cstr "users.db"] aliceEnrolled.store memoFiles
    (noteAndMemo i) 5 := by
  intro i
  cases i with
  | note =>
    refine ⟨by constructor <;> decide +kernel, ?_, ?_, ?_, ?_⟩
    · exact fun _ _ => by decide +kernel
    · intro htype
      cases htype
    · intro htype
      cases htype
    · exact fun _ => by decide +kernel
  | memo =>
    refine ⟨by constructor <;> decide +kernel, ?_, ?_, ?_, ?_⟩
    · exact fun _ _ => by decide +kernel
    · intro htype
      cases htype
    · intro htype
      cases htype
    · exact fun _ => by decide +kernel

theorem noteAndMemo_apart : ∀ i j, i ≠ j →
    Apart [cstr "srv"] ((noteAndMemo i).job 5) ((noteAndMemo j).job 5) := by
  intro i j hne
  cases i with
  | note =>
    cases j with
    | note => exact absurd rfl hne
    | memo => exact ⟨by decide +kernel, by decide +kernel⟩
  | memo =>
    cases j with
    | note => exact ⟨by decide +kernel, by decide +kernel⟩
    | memo => exact absurd rfl hne

theorem two_notes_stored : ∃ v s visits,
    FilesReached [cstr "srv"] aliceEnrolled.store (concurrentJobs noteAndMemo fun _ => 5) memoFiles
      (StartsApart [cstr "srv"] noteAndMemo fun _ => 5) s ∧
    List.Forall₂ (AnsweredBy aliceEnrolled.store noteAndMemo (fun _ => 5) s) [.note, .memo] visits ∧
    List.Forall₂ (Served.Shows [cstr "srv"]) visits
      (Vault.replies v (visits.map (Served.op [cstr "srv"]))) ∧
    Stored [cstr "srv"] [cstr "users.db"] ⟨aliceEnrolled.store, s.mem⟩
      (Vault.after v (visits.map (Served.op [cstr "srv"]))) ∧
    s.mem.contentAt (keyLocation [cstr "srv"] aliceEnrolled.store (cstr "alice") (cstr "n")) =
      some (codeFile (cstr "hi")) ∧
    s.mem.contentAt (keyLocation [cstr "srv"] aliceEnrolled.store (cstr "alice") (cstr "m")) =
      some (codeFile (cstr "ho")) := by
  obtain ⟨v, hstored⟩ := memoFiles_stored
  have hends : noteAndMemoTogether.map
      (fun s => (s.order, isRunning (s.status .note), isRunning (s.status .memo))) =
        some ([.note, .memo], false, false) := by
    decide +kernel
  have hstores : noteAndMemoTogether.map (fun s => [cstr "n", cstr "m"].map fun name =>
      s.mem.contentAt (keyLocation [cstr "srv"] aliceEnrolled.store (cstr "alice") name)) =
        some ([cstr "hi", cstr "ho"].map fun note => some (codeFile note)) := by
    decide +kernel
  obtain ⟨s, hexec, hs⟩ := Option.map_eq_some_iff.mp hends
  simp only [hexec, Option.map_some, List.map_cons, List.map_nil, Option.some.injEq, List.cons.injEq,
    and_true] at hstores
  simp only [Prod.mk.injEq] at hs
  obtain ⟨horder, hnote, hmemo⟩ := hs
  have hidle : ∀ i p, s.status i ≠ .running p := by
    intro i p hp
    cases i with
    | note => simp [hp, isRunning] at hnote
    | memo => simp [hp, isRunning] at hmemo
  have hguarded : Guarded ((fileMachine [cstr "srv"] aliceEnrolled.store).sysStep
      (startJob aliceEnrolled.store (concurrentJobs noteAndMemo fun _ => 5)))
      (StartsApart [cstr "srv"] noteAndMemo fun _ => 5) (System.start memoFiles)
      (.start .note :: .start .memo :: takingTurns) := by
    refine ⟨?_, ?_⟩
    · intro j q hq
      simp [System.start] at hq
    intro s₁ h₁
    obtain rfl := Option.some.inj h₁
    refine ⟨?_, ?_⟩
    · intro j q hq
      have hne : Note.memo ≠ j := by
        rintro rfl
        simp [System.start] at hq
      exact ⟨noteAndMemo_apart .memo j hne, noteAndMemo_apart j .memo hne.symm⟩
    · exact fun s₂ _ => guarded_of_forall takingTurns_apart s₂
  have hreach := Reached.of_exec .start hguarded hexec
  obtain ⟨visits, files', -, hanswered, hreplies, hafter, -⟩ := concurrent_tasks_refine_vault
    [cstr "srv"] [cstr "users.db"] aliceEnrolled.store memoFiles v noteAndMemo (fun _ => 5) hstored
    noteAndMemo_prepared s hreach hidle
  rw [horder] at hanswered
  exact ⟨v, s, visits, hreach, hanswered, hreplies, hafter, hstores⟩

end FileServer

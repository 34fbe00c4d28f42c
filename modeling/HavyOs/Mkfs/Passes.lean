import HavyOs.Mkfs.Write

/-!
# The import passes

What the passes select depends on the host alone, and they write the selected files one
after the other with consecutive indices. `main` therefore returns exactly when every
selection succeeds and `build` of the selected files returns, and what holds of the image
is proved by an invariant of the files imported so far.
-/

namespace HavyOs.Mkfs

open HavyOs.Lib HavyOs.Fs List

/-- A name in the image and the contents. -/
abbrev SourceFile := String × List UInt8

/-- `write_data` and `write_dir_entry` for each file, with indices from `dirIdx` on. -/
def importFiles : List SourceFile → Nat → MkfsM Unit
  | [], _ => pure ()
  | file :: rest, dirIdx => do
    importFile dirIdx file.1 file.2
    importFiles rest (dirIdx + 1)

variable (args : Args)

/-- The image of a list of files: superblock, files, bitmap. -/
def build (files : List SourceFile) : MkfsM Unit := do
  prepare args
  importFiles files 0
  finish

/-! ## What the passes select -/

def selectEntries (select : HostEntry → Selection) : List (Except String HostEntry) → Except Failure (List SourceFile)
  | [] => pure []
  | .error error :: _ => throw (.io error)
  | .ok entry :: rest => do
    let chosen ← select entry
    let more ← selectEntries select rest
    pure (chosen.toList ++ more)

def selectFrom (select : HostEntry → Selection) (host : Host) (dir : Path) : Except Failure (List SourceFile) := do
  let entries ← (host.readDir dir).mapError .io
  selectEntries select entries

variable (host : Host)

def selectPass (sub : Path) (namePrefix : String) : Except Failure (List SourceFile) :=
  match args.dir with
  | none => pure []
  | some srcDir =>
    if host.pathExists (srcDir ++ sub) then selectFrom (selectFile namePrefix) host (srcDir ++ sub) else pure []

def selectBinaries : Except Failure (List SourceFile) :=
  if host.pathExists nativePath && host.isDir nativePath then selectFrom selectNative host nativePath
  else if host.pathExists wasmPath && host.isDir wasmPath then selectFrom selectWasm host wasmPath
  else pure []

/-- The files of all seven passes, in the order of import. -/
def selected : Except Failure (List SourceFile) := do
  let root ← selectPass args host [] ""
  let usrBin ← selectPass args host ["usr", "bin"] "/usr/bin/"
  let home ← selectPass args host ["home"] "/home/"
  let varLog ← selectPass args host ["var", "log"] "/var/log/"
  let initD ← selectPass args host ["etc", "init.d"] "/etc/init.d/"
  let html ← selectPass args host ["etc", "httpd", "html"] "/etc/httpd/html/"
  let binaries ← selectBinaries host
  pure (root ++ (usrBin ++ (home ++ (varLog ++ (initD ++ (html ++ binaries))))))

variable (files : List SourceFile) (file : SourceFile) (more : List SourceFile)

theorem importFiles_append (dirIdx : Nat) :
    importFiles (files ++ more) dirIdx =
      (importFiles files dirIdx >>= fun _ => importFiles more (dirIdx + files.length)) := by
  induction files generalizing dirIdx with
  | nil => simp [importFiles]
  | cons file rest ih => simp [importFiles, ih, Nat.add_assoc, Nat.add_comm 1]

/-- `pass` imports what `choice` selects, and does not return if the selection fails. -/
def Imports (pass : Nat → MkfsM Nat) : Except Failure (List SourceFile) → Prop
  | .ok files => ∀ dirIdx, pass dirIdx = (importFiles files dirIdx >>= fun _ => pure (dirIdx + files.length))
  | .error _ => ∀ dirIdx s count s', pass dirIdx s ≠ .ok count s'

namespace Imports

theorem nothing : Imports (fun dirIdx => pure dirIdx) (pure []) := fun _ => rfl

theorem failed {failure failure' : Failure} : Imports (fun _ => throw failure) (.error failure') :=
  nofun

theorem andThen {first second : Nat → MkfsM Nat} {choice more : Except Failure (List SourceFile)}
    (h : Imports first choice)
    (k : Imports second more) : Imports (fun dirIdx => first dirIdx >>= second) (do
      let files ← choice
      let others ← more
      pure (files ++ others)) := by
  cases choice with
  | error failure =>
    intro dirIdx s count s' returned
    obtain ⟨a, s₁, ran, -⟩ := returns_of_bind returned
    exact h dirIdx s a s₁ ran
  | ok files =>
    cases more with
    | error failure =>
      intro dirIdx s count s' returned
      obtain ⟨a, s₁, -, ran⟩ := returns_of_bind returned
      exact k a s₁ count s' ran
    | ok others =>
      intro dirIdx
      dsimp only
      rw [h dirIdx, importFiles_append, bind_assoc, bind_assoc]
      rw [pure_bind, k, length_append, Nat.add_assoc]

variable (select : HostEntry → Selection)

theorem entries (listing : List (Except String HostEntry)) :
    Imports (importEntries select listing) (selectEntries select listing) := by
  induction listing with
  | nil => exact nothing
  | cons item rest ih =>
    cases item with
    | error error => exact failed
    | ok entry =>
      cases chosen : select entry with
      | error failure =>
        have stops : importEntries select (.ok entry :: rest) = fun _ => throw failure := by
          funext dirIdx
          rw [importEntries, chosen]
        rw [stops, selectEntries, chosen]
        exact failed
      | ok found =>
        cases found with
        | none =>
          have skips : importEntries select (.ok entry :: rest) = importEntries select rest := by
            funext dirIdx
            rw [importEntries, chosen]
          have none : selectEntries select (.ok entry :: rest) = selectEntries select rest := by
            rw [selectEntries, chosen]
            cases selectEntries select rest <;> rfl
          rw [skips, none]
          exact ih
        | some file =>
          have takes : importEntries select (.ok entry :: rest) = fun dirIdx =>
              (do importFiles [file] dirIdx; pure (dirIdx + 1)) >>= importEntries select rest := by
            funext dirIdx
            rw [importEntries, chosen]
            simp [importFiles]
          have more : selectEntries select (.ok entry :: rest) = (do
              let files ← (pure [file] : Except Failure (List SourceFile))
              let others ← selectEntries select rest
              pure (files ++ others)) := by
            rw [selectEntries, chosen]
            rfl
          rw [takes, more]
          exact andThen (fun _ => rfl) ih

variable (host : Host)

theorem directory (dir : Path) : Imports (importFrom select host dir) (selectFrom select host dir) := by
  unfold importFrom selectFrom
  cases host.readDir dir with
  | error error => exact failed
  | ok listing => exact entries select listing

theorem pass (sub : Path) (namePrefix : String) :
    Imports (importPass args host sub namePrefix) (selectPass args host sub namePrefix) := by
  unfold importPass selectPass
  cases args.dir with
  | none => exact nothing
  | some srcDir =>
    dsimp only
    split
    · exact directory _ host _
    · exact nothing

theorem binaries : Imports (importBinaries host) (selectBinaries host) := by
  unfold importBinaries selectBinaries
  split
  · exact directory _ host _
  · split
    · exact directory _ host _
    · exact nothing

theorem all : Imports (importAll args host) (selected args host) := by
  have joined := (pass args host [] "").andThen ((pass args host ["usr", "bin"] "/usr/bin/").andThen
    ((pass args host ["home"] "/home/").andThen ((pass args host ["var", "log"] "/var/log/").andThen
      ((pass args host ["etc", "init.d"] "/etc/init.d/").andThen
        ((pass args host ["etc", "httpd", "html"] "/etc/httpd/html/").andThen (binaries host))))))
  simp only [bind_assoc] at joined
  exact joined

end Imports

/-- **`main` builds the image of the selected files.** -/
theorem main_selected {args : Args} {host : Host} {files : List SourceFile} (choice : selected args host = .ok files) :
    main args host = (build args files >>= fun _ => pure files.length) := by
  have passes := Imports.all args host
  rw [choice] at passes
  rw [main, passes 0, build]
  simp

/-- It does not return when a selection fails. -/
theorem main_returns {args : Args} {host : Host} {s s' : Builder} {count : Nat}
    (returned : main args host s = .ok count s') :
    ∃ files, selected args host = .ok files ∧ build args files s = .ok () s' := by
  cases choice : selected args host with
  | error failure =>
    have passes := Imports.all args host
    rw [choice] at passes
    obtain ⟨_, s₁, -, later⟩ := returns_of_bind returned
    obtain ⟨count, s₂, ran, -⟩ := returns_of_bind later
    exact absurd ran (passes 0 s₁ count s₂)
  | ok files =>
    rw [main_selected choice] at returned
    obtain ⟨_, s₁, ran, last⟩ := returns_of_bind returned
    cases last
    exact ⟨files, rfl, ran⟩

/-! ## Building an image -/

def totalBlocks (files : List SourceFile) : Nat := (files.map fun file => blocksFor file.2.length).sum

theorem totalBlocks_append : totalBlocks (files ++ more) = totalBlocks files + totalBlocks more := by
  simp [totalBlocks]

theorem totalBlocks_singleton : totalBlocks [file] = blocksFor file.2.length := by
  simp [totalBlocks]

/-- The first sector behind the files. -/
def endOf (files : List SourceFile) : Nat := secDataStart + totalBlocks files

theorem endOf_snoc : endOf (files ++ [file]) = endOf files + blocksFor file.2.length := by
  rw [endOf, totalBlocks_append, totalBlocks_singleton, endOf, Nat.add_assoc]

/-- The first sector of the file with index `i`, if it takes any. -/
def startOf (files : List SourceFile) (i : Nat) : Nat := endOf (files.take i)

theorem startOf_succ {files : List SourceFile} {i : Nat} {file : SourceFile} (found : files[i]? = some file) :
    startOf files (i + 1) = startOf files i + blocksFor file.2.length := by
  rw [startOf, take_add_one, found, Option.toList_some, endOf_snoc, startOf]

theorem startOf_mono {i j : Nat} (le : i ≤ j) : startOf files i ≤ startOf files j := by
  have split := take_append_drop i (files.take j)
  rw [take_take, Nat.min_eq_left le] at split
  have sum : totalBlocks (files.take j) = totalBlocks (files.take i) + totalBlocks ((files.take j).drop i) := by
    rw [← totalBlocks_append, split]
  rw [startOf, startOf, endOf, endOf]
  omega

theorem startOf_length {i : Nat} (le : files.length ≤ i) : startOf files i = endOf files := by
  rw [startOf, take_of_length_le le]

theorem startOf_le (i : Nat) : startOf files i ≤ endOf files := by
  rcases Nat.le_total i files.length with le | ge
  · rw [← startOf_length files (Nat.le_refl _)]
    exact startOf_mono files le
  · exact Nat.le_of_eq (startOf_length files ge)

theorem startOf_append {i : Nat} (le : i ≤ files.length) : startOf (files ++ [file]) i = startOf files i := by
  rw [startOf, take_append_of_le_length le, startOf]

/-- The entry `mkfs` writes for a file whose blocks start at `start`. -/
def entryFor (file : SourceFile) (start : Nat) : DirEntry :=
  newEntry file.1 file.2.length (run start (blocksFor file.2.length))

/-- The file with index `idx` was added to the image: first its blocks, then its entry. -/
structure Added (idx : Nat) (file : SourceFile) (start : Nat) (s mid s' : Builder) : Prop where
  stored : Stored idx file.2 start s mid
  entry : Put (.entry idx) (entryOffset idx) (entryFor file start).bytes mid s'

theorem Added.filled {idx : Nat} {file : SourceFile} {start : Nat} {s mid s' : Builder}
    (h : Added idx file start s mid s') :
    Filled s' (start + blocksFor file.2.length) :=
  ⟨h.entry.bitmap.trans h.stored.filled.bitmap, h.stored.filled.low, h.stored.filled.high⟩

theorem importFile_spec (idx : Nat) (file : SourceFile) {start : Nat} {s : Builder} (filled : Filled s start) :
    wp (importFile idx file.1 file.2) (fun _ s' => ∃ mid, Added idx file start s mid s')
      (fun _ _ => Obstacle s (start + blocksFor file.2.length) ∨ 64 < (asBytes file.1).length) s := by
  rw [importFile, wp_bind]
  apply wp_mono (writeData_spec idx file.2 filled) _ (fun _ _ obstacle => Or.inl obstacle)
  rintro _ mid ⟨rfl, stored⟩
  apply wp_mono (writeDirEntry_spec idx file.1 _ _ mid)
  · exact fun _ s' entry => ⟨mid, stored, entry⟩
  · intro _ _ failed
    rw [stored.refuses] at failed
    exact failed.imp_left Or.inl

/-- The rule for the import: an invariant of the files done so far that adding a file keeps. -/
theorem importFiles_rule {I : List SourceFile → Builder → Prop} {refuses : Nat → Bool}
    (filled : ∀ {done s}, I done s → Filled s (endOf done)) (fixed : ∀ {done s}, I done s → s.file.refuses = refuses)
    (step : ∀ {done file s mid s'}, I done s → Added done.length file (endOf done) s mid s' → I (done ++ [file]) s') :
    ∀ (rest done : List SourceFile) {s : Builder}, I done s →
      wp (importFiles rest done.length) (fun _ s' => I (done ++ rest) s')
        (fun _ _ => (∃ k, refuses k = true) ∨ mapBits < endOf (done ++ rest) ∨
        ∃ file ∈ rest, 64 < (asBytes file.1).length) s := by
  intro rest
  induction rest with
  | nil =>
    intro done s start
    rw [append_nil]
    exact start
  | cons file rest ih =>
    intro done s start
    have joined : done ++ file :: rest = done ++ [file] ++ rest := by simp
    rw [importFiles, wp_bind, joined]
    apply wp_mono (importFile_spec done.length file (filled start))
    · rintro _ _ ⟨mid, added⟩
      have later := ih (done ++ [file]) (step start added)
      rw [length_append] at later
      apply wp_mono later (fun _ _ done => done)
      rintro _ _ (refused | full | ⟨other, member, long⟩)
      · exact Or.inl refused
      · exact Or.inr (Or.inl full)
      · exact Or.inr (Or.inr ⟨other, by simp [member], long⟩)
    · rintro _ _ ((refused | full) | long)
      · rw [fixed start] at refused
        exact Or.inl refused
      · have more := totalBlocks_append (done ++ [file]) rest
        have here := endOf_snoc done file
        rw [endOf] at here ⊢
        omega
      · exact Or.inr (Or.inr ⟨file, by simp, long⟩)

/-- The image in front of the import. -/
structure Prepared (args : Args) (refuses : Nat → Bool) (s : Builder) : Prop where
  filled : Filled s secDataStart
  refuses : s.file.refuses = refuses
  bytes : s.file.bytes = overwrite (fun _ => 0) 0 (toLeBytes magic ++ toLeBytes args.totalSectors.toUInt32)
  log : ∀ w ∈ s.file.log, w.owner = .superblock ∧ w.start + w.length ≤ 8

theorem prepare_spec (refuses : Nat → Bool) :
    wp (prepare args) (fun _ s' => Prepared args refuses s') (fun _ _ => ∃ k, refuses k = true) (start refuses) := by
  rw [prepare, wp_bind]
  apply wp_imp (onFile_spec _ (start refuses))
  rintro _ _ rfl
  rw [wp_bind]
  apply wp_imp (seek_spec _ _)
  intro _ s₂ sought
  rw [wp_bind]
  apply wp_imp (sought.write (by simp [toLeBytes]))
  intro _ s₃ first
  rw [wp_bind]
  apply wp_imp (first.write (by simp [toLeBytes]))
  intro _ s₄ both
  refine ⟨⟨rfl, Nat.le_refl _, by decide⟩, both.refuses, both.bytes, fun w member => ?_⟩
  obtain ⟨stretches, logged⟩ := both.logged
  have member : w ∈ stretches := by
    rw [logged.log] at member
    simpa [start, ImageFile.create] using member
  exact ⟨(logged.inside w member).1, (logged.inside w member).2.2⟩

/-- Why an image may not be built. -/
def Hindered (refuses : Nat → Bool) (files : List SourceFile) : Prop :=
  (∃ k, refuses k = true) ∨ mapBits < endOf files ∨ ∃ file ∈ files, 64 < (asBytes file.1).length

/-- The rule for the whole build: an invariant of the files done so far that holds in front of the import and
that adding a file keeps. Only the bitmap is written after the import. -/
theorem build_rule {J : List SourceFile → Builder → Prop} (args : Args) (refuses : Nat → Bool) (files : List SourceFile)
    (first : ∀ {s}, Prepared args refuses s → J [] s)
    (step : ∀ {done file s mid s'}, J done s → Added done.length file (endOf done) s mid s' → J (done ++ [file]) s') :
    wp (build args files)
      (fun _ s' => ∃ s, Filled s (endOf files) ∧ J files s ∧ Put .bitmap 512 s.bitmap.toList s s')
      (fun _ _ => Hindered refuses files) (start refuses) := by
  rw [build, wp_bind]
  apply wp_mono (prepare_spec args refuses) _ (fun _ _ refused => Or.inl refused)
  intro _ s₀ prepared
  rw [wp_bind]
  have loop := importFiles_rule
    (I := fun done s => Filled s (endOf done) ∧ s.file.refuses = refuses ∧ J done s)
    (fun h => h.1) (fun h => h.2.1) (fun {done file s mid s'} h added => ?_) files []
    ⟨prepared.filled, prepared.refuses, first prepared⟩
  · apply wp_imp loop
    rintro _ s₁ ⟨filled, fixed, kept⟩
    rw [finish, wp_bind]
    apply wp_mono (seek_spec _ s₁) _ (fun _ _ refused => Or.inl (by rw [← fixed]; exact refused))
    intro _ s₂ sought
    have nonempty : s₂.bitmap.toList ≠ [] := by
      rw [← length_pos_iff, Vector.length_toList]
      decide
    rw [← fixed]
    apply wp_mono (sought.write nonempty) _ (fun _ _ refused => Or.inl refused)
    intro _ s₃ put
    exact ⟨s₁, filled, kept, sought.bitmap ▸ put⟩
  · refine ⟨?_, by rw [added.entry.refuses, added.stored.refuses, h.2.1], step h.2.2 added⟩
    rw [endOf_snoc]
    exact added.filled

/-- A host that refuses nothing: what is known of the image of files that fit holds of one that is built. -/
theorem build_returns {args : Args} {files : List SourceFile} {Q : Builder → Prop}
    (spec : ∀ refuses, wp (build args files) (fun _ => Q) (fun _ _ => Hindered refuses files) (start refuses))
    (mapped : endOf files ≤ mapBits) (short : ∀ file ∈ files, (asBytes file.1).length ≤ 64) :
    ∃ image, build args files (start fun _ => false) = .ok () image ∧ Q image := by
  cases ran : build args files (start fun _ => false) with
  | ok _ image => exact ⟨image, rfl, wp_of_ok (spec _) ran⟩
  | error e image =>
    rcases wp_of_error (spec _) ran with ⟨k, refused⟩ | _ | ⟨file, member, _⟩
    · cases refused
    · omega
    · exact absurd (short file member) (by omega)

end HavyOs.Mkfs

import SimpleTSDB.Datastore.Paths

/-!
# The scan of the data directory

When the datastore starts, it caches the databases that it finds in the data directory. The name of
a metric is what stands before the extension in a file name, and the path is built again from the
name; a side file of SQLite may decode to a name as well, but then no file has the path.
`start_recovers` says that the scan restores every database that `CreateDatabase` has made, under
its own name, for any order of the listing.
-/

namespace SimpleTSDB.Datastore

open Delimited

/-- An entry of a directory listing. -/
structure DirEntry where
  name : Str
  directory : Bool
deriving DecidableEq

/-- The results of the calls of SQLite in `CacheDatabase`, as far as the environment decides
them. -/
structure CacheOutcome where
  opened : Bool
  verified : Bool
  stepped : Bool
  prepared : Bool

/-- All calls succeed. -/
def CacheOutcome.ok : CacheOutcome := ⟨true, true, true, true⟩

section

variable {F : Type*} (cfg : Config F)

/-- `CacheDatabase`: the connections and the result. A file is opened only if it exists. -/
def cacheDatabase (present : F → Bool) (disk : F → DbFile) (o : CacheOutcome)
    (store : List (Str × F)) (name path : Str) : List (Str × F) × Bool :=
  let file := cfg.resolve path
  if (store.lookup name).isSome then (store, true)    -- okay, I guess
  else if !present file || !o.opened then (store, false)
  else if !o.verified then (store, false)
  else if !o.stepped then (store, false)
  else if (disk file).rows.isNone then (store, false)    -- isn't a properly formed database
  else if !o.prepared then (store, false)
  else (store ++ [(name, file)], true)

/-- The name in a file name with the extension, `some none` for another extension. A file name that
is shorter than the extension makes the position of the first `substr` wrap, and it throws; one of
the same length makes the count of the second one wrap to `npos`. -/
def decodeName (ext filename : Str) : Option (Option Str) :=
  let extLen := ext.length
  let filenameLen := filename.length
  if filenameLen < extLen then none
  else
    let sub := filename.drop (filenameLen - extLen)
    let filename :=
      if filenameLen = extLen then filename else filename.take (filenameLen - extLen - 1)
    some (if sub = ext then some filename else none)

/-- One round of the scan. -/
def scanEntry (present : F → Bool) (disk : F → DbFile) (o : Str → CacheOutcome)
    (store : List (Str × F)) (entry : DirEntry) : Option (List (Str × F)) :=
  if entry.directory then some store
  else match decodeName cfg.dbExt entry.name with
    | none => none
    | some none => some store
    | some (some filename) =>
      some (cacheDatabase cfg present disk (o entry.name) store filename (cfg.path filename)).1

/-- `Datastore::Start`: the connections and `m_Running`; `entries` is `none` if the directory cannot
be searched. The result is `none` if a `substr` throws. -/
def start (present : F → Bool) (disk : F → DbFile) (o : Str → CacheOutcome) :
    Option (List DirEntry) → Option (List (Str × F) × Bool)
  | none => some ([], false)
  | some entries => (entries.foldlM (scanEntry cfg present disk o) []).map (·, true)

/-- `CreateDatabase` makes the file for the name. -/
def CreatedAs [DecidableEq F] (name : Str) (file : F) : Prop :=
  ∃ o disk, (createDatabase cfg o disk name).2.1 = some file

end

/-! ## Data directories -/

/-- The name of a file: a single piece of a path. -/
def IsFileName (sys : Separators) (s : Str) : Prop :=
  pieceMove s = .down s ∧ ∀ c ∈ s, sys.isSep c = false

instance (sys : Separators) (s : Str) : Decidable (IsFileName sys s) :=
  inferInstanceAs (Decidable (_ ∧ ∀ c ∈ s, _))

/-- A data directory on a case-sensitive file system: the listing, which files exist, and what is in
them. Different file names are different files, and the listing has those that exist. -/
structure DataDir {F : Type*} (sys : Separators) (cfg : Config F) where
  entries : List DirEntry
  present : F → Bool
  disk : F → DbFile
  isFileName : ∀ e ∈ entries, e.directory = false → IsFileName sys e.name
  resolve_inj : ∀ s t, IsFileName sys s → IsFileName sys t →
    cfg.resolve (cfg.dataDir ++ '/' :: s) = cfg.resolve (cfg.dataDir ++ '/' :: t) → s = t
  present_iff : ∀ s, IsFileName sys s →
    (present (cfg.resolve (cfg.dataDir ++ '/' :: s)) = true ↔ ⟨s, false⟩ ∈ entries)

/-- The endings of the side files of SQLite. -/
def sideEndings : List Str := ["-wal".toList, "-shm".toList]

/-- The directory holds just the databases that were made for the names, and side files of them. -/
structure DataDir.Holds {F : Type*} [DecidableEq F] {sys : Separators} {cfg : Config F}
    (dir : DataDir sys cfg) (names : List Str) : Prop where
  name_ne : ∀ n ∈ names, n ≠ []
  listed : ∀ n ∈ names, ⟨n ++ '.' :: cfg.dbExt, false⟩ ∈ dir.entries
  table : ∀ n ∈ names, ∀ file, CreatedAs cfg n file → (dir.disk file).rows ≠ none
  only : ∀ e ∈ dir.entries, e.directory = false → ∃ n ∈ names,
    e.name = n ++ '.' :: cfg.dbExt ∨ ∃ side ∈ sideEndings, e.name = n ++ '.' :: cfg.dbExt ++ side

/-! ## Names of files -/

/-- A text that starts with a delimiter is not moved to the right by an ending without it. -/
theorem append_delim_ne_append {d : Char} {side : Str} (hne : side ≠ []) (hd : d ∉ side)
    (a b e : Str) : a ++ d :: e ≠ b ++ d :: e ++ side := by
  intro h
  have hlen := congrArg List.length h
  have hpos := List.length_pos_iff.mpr hne
  simp only [List.length_append] at hlen
  rw [List.append_assoc] at h
  rcases List.append_eq_append_iff.mp h with ⟨c, rfl, -⟩ | ⟨c, rfl, hc⟩
  · rw [List.length_append] at hlen
    omega
  · -- what is moved over starts with the delimiter, but has as many of them as the ending
    have hcount := congrArg (List.count d) hc
    rw [List.count_append, List.count_append, List.count_eq_zero.mpr hd] at hcount
    rw [List.length_append] at hlen
    cases c with
    | nil =>
      rw [List.length_nil] at hlen
      omega
    | cons x c =>
      obtain rfl : d = x := (List.cons.inj hc).1
      simp only [List.count_cons_self] at hcount
      omega

theorem sideEndings_spec : ∀ side ∈ sideEndings, side ≠ [] ∧ '.' ∉ side := by decide

/-- A name is decoded from a file name with any character before the extension. -/
theorem decodeName_append (ext name : Str) (c : Char) :
    decodeName ext (name ++ c :: ext) = some (some name) := by
  have hlen : (name ++ c :: ext).length = name.length + 1 + ext.length := by
    rw [List.length_append, List.length_cons]
    omega
  have hsub : (name ++ c :: ext).drop (name.length + 1) = ext := by
    rw [← List.singleton_append, ← List.append_assoc]
    exact List.drop_left' (by simp)
  have hlt : ¬ name.length + 1 + ext.length < ext.length := by omega
  have hne : ¬ name.length + 1 + ext.length = ext.length := by omega
  simp only [decodeName, hlen]
  rw [if_neg hlt, if_neg hne, Nat.add_sub_cancel, hsub, if_pos rfl, Nat.add_sub_cancel,
    List.take_left]

/-- A name is decoded from the start of a file name, and the extension is its end. -/
theorem decodeName_infix {ext filename name : Str}
    (h : decodeName ext filename = some (some name)) : name <+: filename ∧ ext <:+ filename := by
  rw [decodeName] at h
  simp only at h
  split at h
  · cases h
  · rw [Option.some.injEq, Option.ite_none_right_eq_some] at h
    obtain ⟨hsub, hname⟩ := h
    refine ⟨?_, hsub ▸ List.drop_suffix _ _⟩
    obtain rfl := Option.some.inj hname
    split
    · exact List.prefix_refl _
    · exact List.take_prefix _ _

/-- Behind a longer file name, a name is one character and the extension shorter. -/
theorem length_of_decodeName {ext filename name : Str} (hlt : ext.length < filename.length)
    (h : decodeName ext filename = some (some name)) :
    name.length + 1 + ext.length = filename.length := by
  simp only [decodeName] at h
  rw [if_neg (Nat.not_lt_of_lt hlt), Option.some.injEq, Option.ite_none_right_eq_some,
    if_neg (Nat.ne_of_gt hlt)] at h
  obtain rfl := Option.some.inj h.2
  rw [List.length_take]
  omega

/-- A file name that is no shorter than the extension is decoded. -/
theorem decodeName_isSome {ext filename : Str} (h : ext.length ≤ filename.length) :
    ∃ r, decodeName ext filename = some r := by
  simp only [decodeName]
  rw [if_neg (Nat.not_lt_of_le h)]
  exact ⟨_, rfl⟩

/-! ## One round of the scan -/

section

variable {F : Type*} {cfg : Config F}

/-- A database is cached only if its file exists, under a name that is not known. -/
theorem cacheDatabase_cases (present : F → Bool) (disk : F → DbFile) (o : CacheOutcome)
    (store : List (Str × F)) (name path : Str) :
    (cacheDatabase cfg present disk o store name path).1 = store ∨
      store.lookup name = none ∧ present (cfg.resolve path) = true ∧
        (cacheDatabase cfg present disk o store name path).1 =
          store ++ [(name, cfg.resolve path)] := by
  rw [cacheDatabase]
  split
  · exact .inl rfl
  · next hnone =>
    split
    · exact .inl rfl
    · next hopen =>
      repeat' split
      all_goals first | exact .inl rfl | skip
      simp only [Bool.or_eq_true, Bool.not_eq_true', not_or, Bool.not_eq_false] at hopen
      exact .inr ⟨Option.not_isSome_iff_eq_none.mp hnone, hopen.1, rfl⟩

/-- If no call fails, the database of an existing file with a table is known afterwards. -/
theorem mem_cacheDatabase {present : F → Bool} {disk : F → DbFile} {store : List (Str × F)}
    {name path : Str} (hpresent : present (cfg.resolve path) = true)
    (htable : (disk (cfg.resolve path)).rows ≠ none) :
    name ∈ (cacheDatabase cfg present disk .ok store name path).1.map Prod.fst := by
  rw [cacheDatabase]
  cases hlookup : store.lookup name with
  | some file => exact List.mem_map_of_mem (mem_of_lookup hlookup)
  | none => simp [hpresent, htable, CacheOutcome.ok]

variable [DecidableEq F] {sys : Separators} {dir : DataDir sys cfg} {names : List Str}

/-- `CreateDatabase` makes the file of the path. -/
theorem createdAs_iff {name : Str} {file : F} :
    CreatedAs cfg name file ↔ name ≠ [] ∧ file = cfg.resolve (cfg.path name) := by
  constructor
  · rintro ⟨o, disk, h⟩
    have hname : name ≠ [] := by
      rintro rfl
      cases h
    rw [createDatabase, if_neg (by simpa using hname)] at h
    simp only at h
    refine ⟨hname, ?_⟩
    repeat' split at h
    all_goals cases h
    rfl
  · rintro ⟨hname, rfl⟩
    refine ⟨⟨true, true, true, true, true, true⟩, fun _ => {}, ?_⟩
    rw [createDatabase, if_neg (by simpa using hname)]
    rfl

namespace DataDir.Holds

/-- **The scan decodes no other names**: a name whose file exists is one of the names. -/
theorem mem_of_decodeName (h : dir.Holds names) {e : DirEntry} (he : e ∈ dir.entries)
    (hdir : e.directory = false) {name : Str}
    (hname : decodeName cfg.dbExt e.name = some (some name))
    (hpresent : dir.present (cfg.resolve (cfg.path name)) = true) : name ∈ names := by
  obtain ⟨n, hn, heq | ⟨side, hside, heq⟩⟩ := h.only e he hdir
  · rw [heq, decodeName_append] at hname
    obtain rfl := Option.some.inj (Option.some.inj hname)
    exact hn
  · obtain ⟨hpre, hsuffix⟩ := decodeName_infix hname
    have hdot : '.' ∈ e.name := by simp [heq]
    have hlen : e.name.length = n.length + 1 + cfg.dbExt.length + side.length := by
      rw [heq]
      simp only [List.length_append, List.length_cons]
      omega
    have hpos := List.length_pos_iff.mpr (h.name_ne n hn)
    have hside_pos := List.length_pos_iff.mpr (sideEndings_spec side hside).1
    have hlong := length_of_decodeName (by omega) hname
    have hfile : IsFileName sys (name ++ '.' :: cfg.dbExt) := by
      constructor
      · -- the file name is too long for one of the special pieces
        rw [pieceMove, if_neg, if_neg]
        · intro hs
          have := congrArg List.length hs
          simp only [List.length_append, List.length_cons] at this
          change _ = 2 at this
          omega
        · rintro (hs | hs)
          · simp at hs
          · have := congrArg List.length hs
            simp only [List.length_append, List.length_cons] at this
            change _ = 1 at this
            omega
      · intro c hc
        refine (dir.isFileName e he hdir).2 c ?_
        rcases List.mem_append.mp hc with hc | hc
        · exact hpre.subset hc
        · rcases List.mem_cons.mp hc with rfl | hc
          · exact hdot
          · exact hsuffix.subset hc
    rw [path_eq, dir.present_iff _ hfile] at hpresent
    obtain ⟨n', hn', heq' | ⟨side', hside', heq'⟩⟩ := h.only _ hpresent rfl
    · rwa [List.append_cancel_right heq']
    · exact absurd heq' (append_delim_ne_append (sideEndings_spec side' hside').1
        (sideEndings_spec side' hside').2 _ _ _)

/-- Different names have different files. -/
theorem resolve_inj (h : dir.Holds names) {n n' : Str} (hn : n ∈ names) (hn' : n' ∈ names)
    (heq : cfg.resolve (cfg.path n) = cfg.resolve (cfg.path n')) : n = n' := by
  rw [path_eq, path_eq] at heq
  exact List.append_cancel_right (dir.resolve_inj _ _ (dir.isFileName _ (h.listed n hn) rfl)
    (dir.isFileName _ (h.listed n' hn') rfl) heq)

/-- The database of a name is in the directory, with its table. -/
theorem present_and_table (h : dir.Holds names) {n : Str} (hn : n ∈ names) :
    dir.present (cfg.resolve (cfg.path n)) = true ∧
      (dir.disk (cfg.resolve (cfg.path n))).rows ≠ none := by
  constructor
  · rw [path_eq, dir.present_iff _ (dir.isFileName _ (h.listed n hn) rfl)]
    exact h.listed n hn
  · exact h.table n hn _ (createdAs_iff.mpr ⟨h.name_ne n hn, rfl⟩)

end DataDir.Holds

/-- The connections are to the files made for their names, each under its own name. -/
structure Recovered (cfg : Config F) (names : List Str) (store : List (Str × F)) : Prop where
  names_nodup : (store.map Prod.fst).Nodup
  created : ∀ p ∈ store, p.1 ∈ names ∧ CreatedAs cfg p.1 p.2

/-- **A round of the scan** keeps the connections and adds the database of the entry. -/
theorem scanEntry_recovered (h : dir.Holds names) {o : Str → CacheOutcome} (ho : ∀ s, o s = .ok)
    {store : List (Str × F)} (hstore : Recovered cfg names store) {e : DirEntry}
    (he : e ∈ dir.entries) :
    ∃ store', scanEntry cfg dir.present dir.disk o store e = some store' ∧
      Recovered cfg names store' ∧ store ⊆ store' ∧
      ∀ n ∈ names, e = ⟨n ++ '.' :: cfg.dbExt, false⟩ → n ∈ store'.map Prod.fst := by
  by_cases hdir : e.directory = true
  · refine ⟨store, by rw [scanEntry, if_pos hdir], hstore, List.Subset.refl _, ?_⟩
    rintro n - rfl
    exact absurd hdir Bool.false_ne_true
  · rw [Bool.not_eq_true] at hdir
    have hlen : cfg.dbExt.length ≤ e.name.length := by
      obtain ⟨n, -, heq | ⟨side, -, heq⟩⟩ := h.only e he hdir
      · rw [heq, List.length_append, List.length_cons]
        omega
      · rw [heq]
        simp only [List.length_append, List.length_cons]
        omega
    obtain ⟨r, hr⟩ := decodeName_isSome hlen
    rw [scanEntry, hdir, if_neg Bool.false_ne_true, hr]
    cases r with
    | none =>
      refine ⟨store, rfl, hstore, List.Subset.refl _, ?_⟩
      rintro n - rfl
      rw [decodeName_append] at hr
      cases hr
    | some name =>
      refine ⟨_, rfl, ?_⟩
      rw [ho]
      have hknown : ∀ n ∈ names, e = ⟨n ++ '.' :: cfg.dbExt, false⟩ →
          n ∈ (cacheDatabase cfg dir.present dir.disk .ok store name (cfg.path name)).1.map
            Prod.fst := by
        rintro n hn rfl
        rw [decodeName_append] at hr
        obtain rfl := Option.some.inj (Option.some.inj hr)
        obtain ⟨hpresent, htable⟩ := h.present_and_table hn
        exact mem_cacheDatabase hpresent htable
      rcases cacheDatabase_cases dir.present dir.disk .ok store name (cfg.path name) with
        hsame | ⟨hnew, hpresent, hadd⟩
      · rw [hsame] at hknown ⊢
        exact ⟨hstore, List.Subset.refl _, hknown⟩
      · rw [hadd] at hknown ⊢
        have hname := h.mem_of_decodeName he hdir hr hpresent
        refine ⟨⟨?_, ?_⟩, List.subset_append_left _ _, hknown⟩
        · rw [List.map_append, List.map_singleton]
          exact List.nodup_append.mpr ⟨hstore.names_nodup, List.nodup_singleton _, by
            rintro n hn _ hs rfl
            rw [List.mem_singleton.mp hs] at hn
            exact not_mem_of_lookup hnew hn⟩
        · intro p hp
          rcases List.mem_append.mp hp with hp | hp
          · exact hstore.created p hp
          · rw [List.mem_singleton.mp hp]
            exact ⟨hname, createdAs_iff.mpr ⟨h.name_ne name hname, rfl⟩⟩

/-- The scan of a part of the listing. -/
theorem scan_recovered (h : dir.Holds names) {o : Str → CacheOutcome} (ho : ∀ s, o s = .ok)
    {entries : List DirEntry} (hentries : entries ⊆ dir.entries) {store : List (Str × F)}
    (hstore : Recovered cfg names store) :
    ∃ store', entries.foldlM (scanEntry cfg dir.present dir.disk o) store = some store' ∧
      Recovered cfg names store' ∧ store ⊆ store' ∧
      ∀ n ∈ names, ⟨n ++ '.' :: cfg.dbExt, false⟩ ∈ entries → n ∈ store'.map Prod.fst := by
  induction entries generalizing store with
  | nil => exact ⟨store, rfl, hstore, List.Subset.refl _, fun _ _ hn => absurd hn List.not_mem_nil⟩
  | cons e entries ih =>
    rw [List.cons_subset] at hentries
    obtain ⟨store₁, hstep, h₁, hsub₁, hknown₁⟩ := scanEntry_recovered h ho hstore hentries.1
    obtain ⟨store₂, hrun, h₂, hsub₂, hknown₂⟩ := ih hentries.2 h₁
    refine ⟨store₂, ?_, h₂, List.Subset.trans hsub₁ hsub₂, fun n hn hmem => ?_⟩
    · rw [List.foldlM_cons, hstep]
      exact hrun
    · rcases List.mem_cons.mp hmem with heq | hmem
      · exact List.map_subset _ hsub₂ (hknown₁ n hn heq.symm)
      · exact hknown₂ n hn hmem

/-! ## Restart -/

/-- **A restart recovers every metric under its own name**: the scan of a directory that holds the
databases made for some names ends with these names, each connected to the file made for it, and no
two of them have the same file. -/
theorem start_recovers (dir : DataDir sys cfg) (names : List Str) (h : dir.Holds names)
    (o : Str → CacheOutcome) (ho : ∀ s, o s = .ok) :
    (∃ d : Databases F, start cfg dir.present dir.disk o (some dir.entries) = some (d.store, true) ∧
      d.disk = dir.disk ∧ ∀ n file, (n, file) ∈ d.store ↔ n ∈ names ∧ CreatedAs cfg n file) ∧
      ∀ n ∈ names, ∀ n' ∈ names, ∀ file, CreatedAs cfg n file → CreatedAs cfg n' file → n = n' := by
  have hempty : Recovered cfg names [] := ⟨List.nodup_nil, List.forall_mem_nil _⟩
  obtain ⟨store, hscan, hstore, -, hknown⟩ :=
    scan_recovered h ho (List.Subset.refl dir.entries) hempty
  have hfile : ∀ p ∈ store, p.2 = cfg.resolve (cfg.path p.1) := fun p hp =>
    (createdAs_iff.mp (hstore.created p hp).2).2
  have hsnd : store.map Prod.snd = (store.map Prod.fst).map fun n => cfg.resolve (cfg.path n) := by
    rw [List.map_map]
    exact List.map_congr_left hfile
  refine ⟨⟨⟨store, dir.disk, hstore.names_nodup, ?_, ?_⟩, ?_, rfl, fun n file => ⟨?_, ?_⟩⟩, ?_⟩
  · rw [hsnd]
    refine List.Nodup.map_on ?_ hstore.names_nodup
    intro n hn n' hn' heq
    obtain ⟨p, hp, rfl⟩ := List.mem_map.mp hn
    obtain ⟨q, hq, rfl⟩ := List.mem_map.mp hn'
    exact h.resolve_inj (hstore.created p hp).1 (hstore.created q hq).1 heq
  · intro p hp
    exact h.table _ (hstore.created p hp).1 _ (hstore.created p hp).2
  · rw [start, hscan, Option.map_some]
  · exact hstore.created (n, file)
  · rintro ⟨hn, hcreated⟩
    obtain ⟨p, hp, rfl⟩ := List.mem_map.mp (hknown n hn (h.listed n hn))
    rwa [(createdAs_iff.mp hcreated).2, ← hfile p hp]
  · intro n hn n' hn' file hc hc'
    exact h.resolve_inj hn hn' ((createdAs_iff.mp hc).2 ▸ (createdAs_iff.mp hc').2)

/-- A data directory with one database, a side file of it and the directory itself. -/
def cpuDir : DataDir .posix plainConfig where
  entries := [⟨".".toList, true⟩, ⟨"cpu.tsdb-wal".toList, false⟩, ⟨"cpu.tsdb".toList, false⟩]
  present file := file ∈ ["data/cpu.tsdb-wal".toList, "data/cpu.tsdb".toList]
  disk _ := { rows := some [] }
  isFileName := by decide
  resolve_inj _ _ _ _ h := (List.cons.inj (List.append_cancel_left h)).2
  present_iff s _ := by
    have hcut (t : Str) : plainConfig.resolve (plainConfig.dataDir ++ '/' :: s) =
        "data/".toList ++ t ↔ s = t :=
      @List.append_right_inj _ s t "data/".toList
    have hwal := hcut "cpu.tsdb-wal".toList
    have hdb := hcut "cpu.tsdb".toList
    rw [decide_eq_true_iff]
    simp only [List.mem_cons, DirEntry.mk.injEq, List.not_mem_nil, or_false, and_true,
      Bool.false_eq_true, and_false, false_or]
    exact or_congr hwal hdb

/-- The metric of the directory is recovered. -/
theorem start_recovers_example : ∃ d : Databases Str,
    start plainConfig cpuDir.present cpuDir.disk (fun _ => .ok) (some cpuDir.entries) =
        some (d.store, true) ∧
      d.disk = cpuDir.disk ∧
      ∀ n file, (n, file) ∈ d.store ↔ n ∈ ["cpu".toList] ∧ CreatedAs plainConfig n file :=
  (start_recovers cpuDir ["cpu".toList]
    ⟨by decide, by decide, fun _ _ _ _ h => (by cases h), by decide⟩ _ fun _ => rfl).1

end

end SimpleTSDB.Datastore

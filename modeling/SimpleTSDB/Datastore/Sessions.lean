import SimpleTSDB.Datastore.Drain
import SimpleTSDB.Datastore.Names
import SimpleTSDB.Datastore.Start
import SimpleTSDB.Foundations.Logs

/-!
# Sessions

The datastore over many lives of the program. A session scans the data directory, runs, and leaves
off: it is stopped, or the process is killed between two steps. What the directory becomes
meanwhile is in `DataDir.Becomes`. The data directory is an archive: for every name, the
rows of its database. `sessions_archive` says that every sequence of sessions adds to the archive
just what its sessions have filed, each metric under its own name, so that a restart neither loses
rows nor creates a database again.
-/

namespace SimpleTSDB.Datastore

open Sqlite Transducer Delimited

/-! ## Data directories as archives -/

section

variable {F : Type*} {sys : Separators} {cfg : Config F}

/-- The file of the database of a name. -/
def Config.database (cfg : Config F) (name : Str) : DirEntry := ⟨name ++ '.' :: cfg.dbExt, false⟩

/-- What a data directory keeps: the rows of its databases, by the names of the metrics. -/
def archive (dir : DataDir sys cfg) : Logs Str Row := fun name =>
  if cfg.database name ∈ dir.entries then (dir.disk (cfg.resolve (cfg.path name))).rows else none

/-- A metric as an entry of an archive. -/
def entryOf (m : Metric) : Str × Row := (m.name, rowOf m)

theorem under_entryOf (name : Str) (ms : List Metric) :
    Logs.under name (ms.map entryOf) = (ms.filter (·.name = name)).map rowOf := by
  rw [Logs.under, List.filter_map, List.map_map]
  rfl

variable [DecidableEq F] {dir : DataDir sys cfg} {names : List Str}

/-- A directory that holds the databases of some names has databases for these names only. -/
theorem DataDir.Holds.database_mem_iff (h : dir.Holds names) {name : Str} :
    cfg.database name ∈ dir.entries ↔ name ∈ names := by
  refine ⟨fun hmem => ?_, h.listed name⟩
  obtain ⟨n, hn, heq | ⟨side, hside, heq⟩⟩ := h.only _ hmem rfl
  · rwa [List.append_cancel_right heq]
  · exact absurd heq (append_delim_ne_append (sideEndings_spec side hside).1
      (sideEndings_spec side hside).2 _ _ _)

theorem DataDir.Holds.archive_apply (h : dir.Holds names) (name : Str) : archive dir name =
    if name ∈ names then (dir.disk (cfg.resolve (cfg.path name))).rows else none := by
  simp only [archive, h.database_mem_iff]

end

/-! ## Sessions -/

/-- A session: its steps, the state in which it leaves off, and what it has done. -/
structure Session (F : Type*) where
  actions : List Action
  final : State F
  events : List (Event F)

/-- The metrics filed in a session: those handed out, but for what is left of the last batch. -/
def Session.filed {F : Type*} (x : Session F) : List Metric := written x.final x.events

/-- The names for which a session creates databases. -/
def Session.created {F : Type*} (x : Session F) : List Str := creations x.events

/-- A data directory, and what it becomes when databases are created for some names and the files
are written: no files are added or removed but databases and their side files. -/
structure DataDir.Becomes {F : Type*} {sys : Separators} {cfg : Config F}
    (dir dir' : DataDir sys cfg) (created : List Str) (disk : F → DbFile) : Prop where
  disk : dir'.disk = disk
  kept : ∀ name, cfg.database name ∈ dir.entries → cfg.database name ∈ dir'.entries
  added : ∀ name ∈ created, IsFileName sys (cfg.database name).name →
    cfg.database name ∈ dir'.entries
  only : ∀ e ∈ dir'.entries, e.directory = false → e ∈ dir.entries ∨
    ∃ name, (cfg.database name ∈ dir.entries ∨ name ∈ created) ∧
      (e.name = (cfg.database name).name ∨
        ∃ side ∈ sideEndings, e.name = (cfg.database name).name ++ side)

/-- A session on a data directory, and the directory afterwards: the scan finds the databases, the
calls of SQLite succeed, and the queued metrics have names that are names of files. -/
structure Session.On {F : Type*} [DecidableEq F] {sys : Separators} {cfg : Config F}
    (x : Session F) (dir dir' : DataDir sys cfg) : Prop where
  ran : ∃ d : Databases F,
    start cfg dir.present dir.disk (fun _ => .ok) (some dir.entries) = some (d.store, true) ∧
      d.disk = dir.disk ∧ run (step cfg) (started d) x.actions = some (x.final, x.events)
  ok : AllOk x.events
  stopsLast : StopsLast x.actions
  named : ∀ m, .enqueue m ∈ x.actions → m.name ≠ []
  fileNames : ∀ name, name ∈ internalNames ∨ (∃ m, .enqueue m ∈ x.actions ∧ m.name = name) →
    IsFileName sys (cfg.database name).name
  left : dir.Becomes dir' x.created x.final.disk

/-! ## The connections of a run -/

section

variable {F : Type*}

theorem Pc.remaining_subset (pc : Pc) : pc.remaining ⊆ pc.metrics := by
  cases pc with
  | processBatch m count i => exact List.Subset.trans (List.drop_subset _ _) (List.take_subset _ _)
  | stopBatch m count i => exact List.Subset.trans (List.drop_subset _ _) (List.take_subset _ _)
  | _ => exact List.nil_subset _

/-- In a batch the connections are still in the cache. -/
theorem Pc.cached_of_remaining {pc : Pc} (h : pc.remaining ≠ []) (bs : List (Str × F)) :
    pc.cached bs = bs := by
  cases pc <;> first | rfl | exact absurd rfl h

/-- A file without a table is not connected, and is as it was at the start. -/
theorem Filed.table_none {d : Databases F} {bs : List (Str × F)} {done : List Metric}
    {disk : F → DbFile} (h : Filed d bs done disk) {f : F} (hf : (disk f).rows = none) :
    (d.disk f).rows = none := by
  have hmem : f ∉ bs.map Prod.snd := by
    intro hmem
    obtain ⟨p, hp, rfl⟩ := List.mem_map.mp hmem
    rw [h.rows p hp] at hf
    cases hf
  rwa [← h.other f hmem]

variable [DecidableEq F] {cfg : Config F}

/-- Writing a metric connects at most its own name, to the file of the name. -/
theorem storeMetric_connections {r : Outcome} {s u : State F} {m : Metric} {es : List (Event F)}
    (hname : m.name ≠ []) (hs : storeMetric cfg r s m = (u, es)) (hok : AllOk es) :
    ∀ p ∈ connections es, p = (m.name, cfg.resolve (cfg.path m.name)) ∧
      (s.disk p.2).rows = none := by
  intro p hp
  rw [storeMetric] at hs
  split at hs
  next file hfile =>
    obtain ⟨-, rfl⟩ := Prod.mk.inj hs
    rw [(observe_calls _).2.2.2] at hp
    cases hp
  next hnone =>
    cases hc : createDatabase cfg r s.disk m.name with
    | mk disk q =>
      obtain ⟨_ | file, calls⟩ := q
      all_goals
        simp only [hc, Prod.mk.injEq] at hs
        obtain ⟨-, rfl⟩ := hs
      · simp [connections, List.filterMap_map] at hp
      · have hcalls : false ∉ calls := by
          simp only [AllOk, List.mem_cons, List.mem_map, List.mem_append, not_or, not_exists] at hok
          exact fun hf => hok.2.2 false ⟨.inl hf, rfl⟩
        obtain ⟨hconn, htable, -⟩ := createDatabase_ok hname hc hcalls
        obtain rfl := Option.some.inj hconn
        rw [(observe_creation _ _ _).2, (observe_calls _).2.2.2, List.mem_singleton] at hp
        exact ⟨hp, hp ▸ htable⟩

/-- A step writes the next metric of the batch, or nothing. -/
theorem step_remaining {s t : State F} {a : Action} {es : List (Event F)}
    (hs : step cfg s a = some (t, es)) :
    connections es = [] ∧ s.pc.remaining ++ dequeued es = t.pc.remaining ∨
      ∃ r x u, storeMetric cfg r s x = (u, es) ∧ s.pc.remaining = x :: t.pc.remaining := by
  cases stepped_of_step hs with
  | enqueue m => exact .inl ⟨rfl, List.append_nil _⟩
  | count hpos => exact .inl ⟨rfl, List.append_nil _⟩
  | process hpc => exact .inl ⟨rfl, by rw [hpc]; rfl⟩
  | processEmpty hpc hb => exact .inl ⟨rfl, by rw [hpc]; rfl⟩
  | @processBatch m batch hpc hb =>
    refine .inl ⟨by simp [connections, List.filterMap_map], ?_⟩
    rw [hpc, dequeued_map]
    exact (take_refill batch m).symm
  | stopEmpty hpc hb => exact .inl ⟨rfl, by rw [hpc]; rfl⟩
  | @stopBatch m batch hpc hb =>
    refine .inl ⟨by simp [connections, List.filterMap_map], ?_⟩
    rw [hpc, dequeued_map]
    exact (take_refill batch m).symm
  | processElement r hpc hi hx =>
    exact .inr ⟨r, _, _, rfl, by rw [hpc]; exact drop_take_eq_cons hi hx⟩
  | stopElement r hpc hi hx =>
    exact .inr ⟨r, _, _, rfl, by rw [hpc]; exact drop_take_eq_cons hi hx⟩
  | @processEnd m count i hpc hi =>
    exact .inl ⟨rfl, by rw [hpc]; exact (List.append_nil _).trans (drop_take_eq_nil m hi)⟩
  | @stopEnd m count i hpc hi =>
    exact .inl ⟨rfl, by rw [hpc]; exact (List.append_nil _).trans (drop_take_eq_nil m hi)⟩
  | notUpdated hpc => exact .inl ⟨rfl, by rw [hpc]; rfl⟩
  | updated stats time hpc => exact .inl ⟨rfl, by rw [hpc]; rfl⟩
  | reported hpc => exact .inl ⟨rfl, by rw [hpc]; rfl⟩
  | report hpc => exact .inl ⟨rfl, by rw [hpc]; rfl⟩
  | stop hpc => exact .inl ⟨rfl, by rw [hpc]; rfl⟩
  | close hpc => exact .inl ⟨rfl, by rw [hpc]; rfl⟩

/-- A connection that was added when the metrics `done` had been filed: under the name of one of
them, to the file of the name, which had no table at the start. -/
structure Connected (P : Str → Prop) (cfg : Config F) (d : Databases F) (done : List Metric)
    (p : Str × F) : Prop where
  name_ne : p.1 ≠ []
  named : P p.1
  file : p.2 = cfg.resolve (cfg.path p.1)
  table : (d.disk p.2).rows = none
  filed : p.1 ∈ done.map Metric.name

/-- **The connections that a run adds.** -/
theorem connected_of_run {P : Str → Prop} {d : Databases F} {as : List Action} {t : State F}
    {o : List (Event F)} (h : run (step cfg) (started d) as = some (t, o))
    (hnames : ∀ m, .enqueue m ∈ as → m.name ≠ []) (hstop : StopsLast as) (hok : AllOk o)
    (hd : ∀ p ∈ d.store, P p.1) (has : ∀ m, .enqueue m ∈ as → P m.name) (hempty : P [])
    (hinternal : ∀ name ∈ internalNames, P name) :
    ∃ done, dequeued o = done ++ t.pc.remaining ∧
      ∀ p ∈ connections o, Connected P cfg d done p := by
  refine run_induction (motive := fun as t o => (∀ m, .enqueue m ∈ as → m.name ≠ []) →
    StopsLast as → AllOk o → (∀ m, .enqueue m ∈ as → P m.name) →
    ∃ done, dequeued o = done ++ t.pc.remaining ∧ ∀ p ∈ connections o, Connected P cfg d done p)
    (fun _ _ _ _ => ⟨[], rfl, List.forall_mem_nil _⟩) ?_ h hnames hstop hok has
  intro as s o a t es hrun ih hs hnames hstop hok has
  rw [allOk_append] at hok
  rw [StopsLast, List.pairwise_append] at hstop
  have hnames' := fun m hm => hnames m (List.mem_append_left _ hm)
  have has' := fun m hm => has m (List.mem_append_left _ hm)
  obtain ⟨done, hdone, hconn⟩ := ih hnames' hstop.1 hok.1 has'
  rw [dequeued_append, connections_append, hdone]
  obtain ⟨hnone, hrem⟩ | ⟨r, x, u, hstore, hrem⟩ := step_remaining hs
  · refine ⟨done, by rw [List.append_assoc, hrem], ?_⟩
    rwa [hnone, List.append_nil]
  · have hinv := inv_of_run hrun hnames' hstop.1 hok.1
    obtain ⟨done', hdone', hfiled⟩ := hinv.filed
    obtain rfl : done' = done := List.append_cancel_right (hdone'.symm.trans hdone)
    have hx : x ∈ s.pc.remaining := by simp [hrem]
    have hname : x.name ≠ [] := by
      refine hinv.named x ?_
      rw [← Multiset.mem_coe, hinv.balance, Multiset.mem_add, Multiset.mem_coe, hdone]
      exact .inl (List.mem_append_right _ hx)
    have hP : P x.name :=
      (names_of_run hrun hd has' hempty hinternal).buffer x (Pc.remaining_subset _ hx)
    have hcache : s.store = d.store ++ connections o := by
      rw [hinv.store, Pc.cached_of_remaining (List.ne_nil_of_mem hx)]
    have hnew := storeMetric_connections hname hstore hok.2
    obtain ⟨-, hdeq, -, -, -⟩ := storeMetric_filed hname (hcache ▸ hfiled) hstore hok.2
    refine ⟨done' ++ [x], ?_, fun p hp => ?_⟩
    · rw [hdeq, hrem, List.append_nil, List.append_assoc]
      rfl
    · rcases List.mem_append.mp hp with hp | hp
      · have hold := hconn p hp
        refine ⟨hold.name_ne, hold.named, hold.file, hold.table, ?_⟩
        rw [List.map_append]
        exact List.mem_append_left _ hold.filed
      · obtain ⟨rfl, htable⟩ := hnew p hp
        exact ⟨hname, hP, rfl, hfiled.table_none htable, by simp⟩

end

/-! ## One session -/

section

variable {F : Type*} {sys : Separators} {cfg : Config F} {names : List Str} {x : Session F}

/-- What is known of a session on a directory when it leaves off. -/
structure Session.Known (cfg : Config F) (sys : Separators) (x : Session F) (names : List Str)
    (d : Databases F) : Prop where
  store : ∀ p, p ∈ d.store ↔ p.1 ∈ names ∧ p.2 = cfg.resolve (cfg.path p.1)
  inv : Inv d x.actions x.final x.events
  handed : dequeued x.events = x.filed ++ x.final.pc.remaining
  filed : Filed d (d.store ++ connections x.events) x.filed x.final.disk
  connected : ∀ p ∈ connections x.events,
    Connected (fun n => IsFileName sys (cfg.database n).name) cfg d x.filed p

namespace Session.Known

variable {d : Databases F}

/-- The names of a session: those of the directory and those created, each with its file. -/
theorem mem_iff (h : x.Known cfg sys names d) {name : Str} : name ∈ names ++ x.created ↔
    (name, cfg.resolve (cfg.path name)) ∈ d.store ++ connections x.events := by
  rw [List.mem_append, List.mem_append, h.store, Session.created, h.inv.creations]
  refine or_congr (and_iff_left rfl).symm ⟨fun hmem => ?_, fun hmem => ?_⟩
  · obtain ⟨p, hp, rfl⟩ := List.mem_map.mp hmem
    rwa [← (h.connected p hp).file]
  · exact List.mem_map.mpr ⟨_, hmem, rfl⟩

/-- The rows of a name at the end. -/
theorem rows (h : x.Known cfg sys names d) {name : Str} (hname : name ∈ names ++ x.created) :
    (x.final.disk (cfg.resolve (cfg.path name))).rows =
      some ((d.disk (cfg.resolve (cfg.path name))).rows.getD [] ++
        Logs.under name (x.filed.map entryOf)) := by
  rw [under_entryOf]
  exact h.filed.rows _ (h.mem_iff.mp hname)

/-- A name that is created had no rows, and has a metric that is filed. -/
theorem created (h : x.Known cfg sys names d) {name : Str} (hname : name ∈ x.created) :
    Connected (fun n => IsFileName sys (cfg.database n).name) cfg d x.filed
      (name, cfg.resolve (cfg.path name)) := by
  rw [Session.created, h.inv.creations] at hname
  obtain ⟨p, hp, rfl⟩ := List.mem_map.mp hname
  have hconn := h.connected p hp
  rwa [← hconn.file]

/-- A name that has a metric filed is a name of the session. -/
theorem mem_of_filed (h : x.Known cfg sys names d) {name : Str}
    (hname : Logs.under name (x.filed.map entryOf) ≠ []) : name ∈ names ++ x.created := by
  rw [Ne, Logs.under_eq_nil_iff, not_not, List.map_map, List.mem_map] at hname
  obtain ⟨m, hm, rfl⟩ := hname
  obtain ⟨p, hp, heq⟩ := List.mem_map.mp (h.filed.known m hm)
  rw [h.mem_iff]
  have hfile : p.2 = cfg.resolve (cfg.path p.1) := by
    rcases List.mem_append.mp hp with hp | hp
    · exact ((h.store p).mp hp).2
    · exact (h.connected p hp).file
  change (m.name, cfg.resolve (cfg.path m.name)) ∈ _
  rwa [← heq, ← hfile]

end Session.Known

variable [DecidableEq F] {dir dir' : DataDir sys cfg}

/-- The scan finds the names of the directory, each connected to its file. -/
theorem DataDir.Holds.mem_store_iff (h : dir.Holds names) {store : List (Str × F)}
    (hstart : start cfg dir.present dir.disk (fun _ => .ok) (some dir.entries) =
      some (store, true)) {p : Str × F} :
    p ∈ store ↔ p.1 ∈ names ∧ p.2 = cfg.resolve (cfg.path p.1) := by
  have hempty : Recovered cfg names [] := ⟨List.nodup_nil, List.forall_mem_nil _⟩
  obtain ⟨store', hscan, hrec, -, hknown⟩ := scan_recovered h (o := fun _ => .ok) (fun _ => rfl)
    (List.Subset.refl dir.entries) hempty
  rw [start, hscan, Option.map_some] at hstart
  obtain ⟨rfl, -⟩ := Prod.mk.inj (Option.some.inj hstart)
  have hfile : ∀ q ∈ store', q.2 = cfg.resolve (cfg.path q.1) := fun q hq =>
    (createdAs_iff.mp (hrec.created q hq).2).2
  constructor
  · exact fun hp => ⟨(hrec.created p hp).1, hfile p hp⟩
  · rintro ⟨hn, hp⟩
    obtain ⟨q, hq, heq⟩ := List.mem_map.mp (hknown p.1 hn (h.listed p.1 hn))
    rwa [← Prod.ext heq (by rw [hfile q hq, hp, heq])]

/-- Every session is known. -/
theorem Session.On.known (hx : x.On dir dir') (h : dir.Holds names) :
    ∃ d, x.Known cfg sys names d ∧ d.disk = dir.disk := by
  obtain ⟨d, hstart, hdisk, hrun⟩ := hx.ran
  have hstore : ∀ p, p ∈ d.store ↔ p.1 ∈ names ∧ p.2 = cfg.resolve (cfg.path p.1) :=
    fun p => h.mem_store_iff hstart
  have hinv := inv_of_run hrun hx.named hx.stopsLast hx.ok
  obtain ⟨hhanded, hfiled⟩ := hinv.filed_written
  -- the unused elements of a buffer have no name
  obtain ⟨done, hdone, hconn⟩ := connected_of_run
    (P := fun n => n ≠ [] → IsFileName sys (cfg.database n).name) hrun hx.named hx.stopsLast hx.ok
    (fun p hp _ => dir.isFileName _ (h.listed _ ((hstore p).mp hp).1) rfl)
    (fun m hm _ => hx.fileNames _ (.inr ⟨m, hm, rfl⟩)) (fun hne => absurd rfl hne)
    (fun name hname _ => hx.fileNames name (.inl hname))
  obtain rfl := written_eq hdone
  refine ⟨d, ⟨hstore, hinv, hhanded, hfiled, fun p hp => ?_⟩, hdisk⟩
  have hc := hconn p hp
  exact ⟨hc.name_ne, hc.named hc.name_ne, hc.file, hc.table, hc.filed⟩

/-- **After a session** the directory holds the databases of its names and of the new ones. -/
theorem Session.On.holds (hx : x.On dir dir') (h : dir.Holds names) :
    dir'.Holds (names ++ x.created) := by
  obtain ⟨d, hknown, -⟩ := hx.known h
  refine ⟨fun n hn => ?_, fun n hn => ?_, fun n hn file hfile => ?_, fun e he hdir => ?_⟩
  · rcases List.mem_append.mp hn with hn | hn
    · exact h.name_ne n hn
    · exact (hknown.created hn).name_ne
  · rcases List.mem_append.mp hn with hn | hn
    · exact hx.left.kept n (h.listed n hn)
    · exact hx.left.added n hn (hknown.created hn).named
  · obtain ⟨-, rfl⟩ := createdAs_iff.mp hfile
    rw [hx.left.disk, hknown.rows hn]
    exact Option.some_ne_none _
  · rcases hx.left.only e he hdir with he | ⟨n, hn, heq⟩
    · obtain ⟨n, hn, heq⟩ := h.only e he hdir
      exact ⟨n, List.mem_append_left _ hn, heq⟩
    · refine ⟨n, List.mem_append.mpr (hn.imp_left h.database_mem_iff.mp), ?_⟩
      exact heq

/-- **A session adds to the archive what it has filed.** -/
theorem Session.On.archive_eq (hx : x.On dir dir') (h : dir.Holds names) :
    archive dir' = (archive dir).addAll (x.filed.map entryOf) := by
  obtain ⟨d, hknown, hdisk⟩ := hx.known h
  funext name
  rw [Logs.addAll_apply, (hx.holds h).archive_apply, h.archive_apply, hx.left.disk, ← hdisk]
  by_cases hname : name ∈ names ++ x.created
  · rw [if_pos hname, hknown.rows hname]
    rcases List.mem_append.mp hname with hold | hnew
    · have htable := h.table name hold _ (createdAs_iff.mpr ⟨h.name_ne name hold, rfl⟩)
      obtain ⟨rows, hrows⟩ := Option.ne_none_iff_exists'.mp (hdisk ▸ htable)
      rw [if_pos hold, hrows]
      split
      next hnil => rw [hnil, Option.getD_some, List.append_nil]
      next => rfl
    · have hcreated := hknown.created hnew
      have hne : Logs.under name (x.filed.map entryOf) ≠ [] := by
        rw [Ne, Logs.under_eq_nil_iff, not_not, List.map_map]
        exact hcreated.filed
      rw [if_neg hne, hcreated.table]
      split <;> rfl
  · have hnil : Logs.under name (x.filed.map entryOf) = [] := by
      by_contra hne
      exact hname (hknown.mem_of_filed hne)
    rw [if_neg hname, if_pos hnil, if_neg fun hn => hname (List.mem_append_left _ hn)]

/-- The names of a session are distinct, and those created are new. -/
theorem Session.On.nodup (hx : x.On dir dir') (h : dir.Holds names) :
    x.created.Nodup ∧ ∀ name ∈ x.created, name ∉ names := by
  obtain ⟨d, hknown, -⟩ := hx.known h
  have hnodup := hknown.filed.names_nodup
  rw [List.map_append, ← hknown.inv.creations, List.nodup_append] at hnodup
  obtain ⟨-, hcreated, hne⟩ := hnodup
  refine ⟨hcreated, fun name hname hold => ?_⟩
  have hmem : (name, cfg.resolve (cfg.path name)) ∈ d.store := (hknown.store _).mpr ⟨hold, rfl⟩
  exact hne name (List.mem_map_of_mem hmem) name hname rfl

/-- **What a session files**: what it hands out but the rest of the last batch, and everything that
is queued if it is stopped. -/
theorem Session.On.filed (hx : x.On dir dir') (h : dir.Holds names) :
    dequeued x.events = x.filed ++ x.final.pc.remaining ∧
      (x.final.pc = .stopped → x.filed.Perm (enqueued x.events)) := by
  obtain ⟨d, hknown, -⟩ := hx.known h
  refine ⟨hknown.handed, fun hpc => ?_⟩
  have hqueue : x.final.queue = 0 := hknown.inv.drained (by rw [hpc]; trivial)
  have hbalance := hknown.inv.balance
  rw [hqueue, Multiset.add_zero, Multiset.coe_eq_coe, hknown.handed, hpc] at hbalance
  simpa [Pc.remaining] using hbalance.symm

/-! ## Sessions one after the other -/

/-- Sessions that start on one directory and leave another one behind. -/
inductive Sessions : DataDir sys cfg → List (Session F) → DataDir sys cfg → Prop
  | nil (dir : DataDir sys cfg) : Sessions dir [] dir
  | cons {dir dir₁ dir' : DataDir sys cfg} {x : Session F} {xs : List (Session F)}
      (hx : x.On dir dir₁) (hxs : Sessions dir₁ xs dir') : Sessions dir (x :: xs) dir'

/-- **Restarts keep everything that has been filed.** Over any number of sessions, each of them
stopped or killed between two steps, the archive grows by just the metrics that the sessions have
filed, in order and under their names. A session files what it hands out, but for the rest of its
last batch, and all that was queued if it is stopped; and no database is created twice. -/
theorem sessions_archive (dir dir' : DataDir sys cfg) (names : List Str) (xs : List (Session F))
    (h : dir.Holds names) (hxs : Sessions dir xs dir') :
    archive dir' = (archive dir).addAll ((xs.flatMap Session.filed).map entryOf) ∧
      dir'.Holds (names ++ xs.flatMap Session.created) ∧
      (names.Nodup → (names ++ xs.flatMap Session.created).Nodup) ∧
      ∀ x ∈ xs, dequeued x.events = x.filed ++ x.final.pc.remaining ∧
        (x.final.pc = .stopped → x.filed.Perm (enqueued x.events)) := by
  induction hxs generalizing names with
  | nil dir => exact ⟨rfl, by simpa using h, by simp, List.forall_mem_nil _⟩
  | @cons dir dir₁ dir' x xs hx hxs ih =>
    obtain ⟨harchive, hholds, hnodup, hfiled⟩ := ih _ (hx.holds h)
    rw [List.append_assoc, ← List.flatMap_cons] at hholds hnodup
    refine ⟨?_, hholds, fun hn => hnodup ?_, List.forall_mem_cons.mpr ⟨hx.filed h, hfiled⟩⟩
    · rw [harchive, hx.archive_eq h, ← Logs.addAll_append, ← List.map_append, List.flatMap_cons]
    · obtain ⟨hcreated, hnew⟩ := hx.nodup h
      refine List.nodup_append.mpr ⟨hn, hcreated, ?_⟩
      rintro n hold _ hname rfl
      exact hnew n hname hold

end

/-! ## A restart -/

/-- Different files have different paths. -/
theorem plainConfig_resolve_inj (s t : Str) (_ : IsFileName .posix s) (_ : IsFileName .posix t)
    (h : plainConfig.resolve (plainConfig.dataDir ++ '/' :: s) =
      plainConfig.resolve (plainConfig.dataDir ++ '/' :: t)) : s = t :=
  (List.cons.inj (List.append_cancel_left h)).2

/-- The data directory of the plain configuration with the databases of some names. -/
def plainDir (names : List Str) (disk : Str → DbFile)
    (h : ∀ n ∈ names, IsFileName .posix (plainConfig.database n).name) :
    DataDir .posix plainConfig where
  entries := names.map plainConfig.database
  present file := (names.map plainConfig.path).contains file
  disk := disk
  isFileName e he _ := by
    obtain ⟨n, hn, rfl⟩ := List.mem_map.mp he
    exact h n hn
  resolve_inj := plainConfig_resolve_inj
  present_iff s _ := by
    rw [List.contains_iff_mem, List.mem_map, List.mem_map]
    refine exists_congr fun n => and_congr_right fun _ => ?_
    rw [path_eq]
    have hcut : plainConfig.dataDir ++ '/' :: (n ++ '.' :: plainConfig.dbExt) =
        plainConfig.dataDir ++ '/' :: s ↔ n ++ '.' :: plainConfig.dbExt = s :=
      @List.append_right_inj _ _ _ "data/".toList
    exact hcut.trans (by simp [Config.database])

/-- An empty directory. -/
theorem plainDir_holds {disk : Str → DbFile} {h} : (plainDir [] disk h).Holds [] :=
  ⟨List.forall_mem_nil _, List.forall_mem_nil _, List.forall_mem_nil _, List.forall_mem_nil _⟩

/-- A metric is queued and handed out, and the program is killed. -/
def killedRun : List Action := [.enqueue cpuMetric, .count, .process, .dequeue [cpuMetric]]

/-- Databases are added, and no side files are left. -/
theorem plainDir_becomes {names : List Str} {disk : Str → DbFile} {h} (created : List Str)
    (disk' : Str → DbFile) {h'} :
    (plainDir names disk h).Becomes (plainDir (names ++ created) disk' h') created disk' where
  disk := rfl
  kept _ hname := by
    obtain ⟨n, hn, heq⟩ := List.mem_map.mp hname
    exact heq ▸ List.mem_map_of_mem (List.mem_append_left _ hn)
  added name hname _ := List.mem_map_of_mem (List.mem_append_right _ hname)
  only e he _ := by
    obtain ⟨n, hn, rfl⟩ := List.mem_map.mp he
    refine .inr ⟨n, ?_, .inl rfl⟩
    rcases List.mem_append.mp hn with hn | hn
    · exact .inl (List.mem_map_of_mem hn)
    · exact .inr hn

/-- A session that queues only this metric, when no side files are left. -/
theorem on_plainDir {names : List Str} {disk : Str → DbFile} {h} {x : Session Str} {h'}
    (ran : ∃ d : Databases Str, start plainConfig (plainDir names disk h).present disk
        (fun _ => .ok) (some (names.map plainConfig.database)) = some (d.store, true) ∧
      d.disk = disk ∧
      run (step plainConfig) (started d) x.actions = some (x.final, x.events))
    (ok : AllOk x.events) (stopsLast : StopsLast x.actions)
    (queued : ∀ m, .enqueue m ∈ x.actions → m = cpuMetric) :
    x.On (plainDir names disk h) (plainDir (names ++ x.created) x.final.disk h') where
  ran := ran
  ok := ok
  stopsLast := stopsLast
  named m hm := by
    rw [queued m hm]
    decide
  fileNames name hname := by
    have hname : name ∈ cpuMetric.name :: internalNames := by
      rcases hname with hname | ⟨m, hm, rfl⟩
      · exact List.mem_cons_of_mem _ hname
      · rw [queued m hm]
        exact List.mem_cons_self
    have hall : ∀ n ∈ cpuMetric.name :: internalNames,
        IsFileName .posix (plainConfig.database n).name := by decide
    exact hall name hname
  left := plainDir_becomes x.created x.final.disk

/-- The scan of a directory with one database. -/
theorem start_singleton {name : Str} {disk : Str → DbFile}
    (hrows : (disk (plainConfig.path name)).rows.isSome) :
    start plainConfig ([name].map plainConfig.path).contains disk
      (fun _ => .ok) (some ([name].map plainConfig.database)) =
        some ([(name, plainConfig.path name)], true) := by
  have hdir : (plainConfig.database name).directory = false := rfl
  have hname : decodeName plainConfig.dbExt (plainConfig.database name).name = some (some name) :=
    decodeName_append _ _ _
  have hfile : plainConfig.resolve (plainConfig.path name) = plainConfig.path name := rfl
  have htable : (disk (plainConfig.path name)).rows.isNone = false := by
    rwa [Option.isNone_eq_false_iff]
  simp only [start, List.map_singleton, List.foldlM_cons, List.foldlM_nil, scanEntry, hdir, hname,
    cacheDatabase, hfile, htable]
  simp [CacheOutcome.ok]

theorem sessions_archive_example : ∃ (dir dir' : DataDir .posix plainConfig)
    (x y : Session Str), x.actions = stopRun ∧ y.actions = killedRun ∧
      archive dir' = (archive dir).addAll (([x, y].flatMap Session.filed).map entryOf) := by
  have hrun : ∃ p ∈ run (step plainConfig) (started noDatabases) stopRun,
      AllOk p.2 ∧ creations p.2 = ["cpu".toList] ∧
        (p.1.disk (plainConfig.path "cpu".toList)).rows.isSome := by decide +kernel
  obtain ⟨⟨t, o⟩, hrun, hok, hcreated, hrows⟩ := hrun
  dsimp only at hok hcreated hrows
  let d : Databases Str := ⟨[("cpu".toList, plainConfig.path "cpu".toList)], t.disk, by decide,
    by decide, List.forall_mem_singleton.mpr (Option.isSome_iff_ne_none.mp hrows)⟩
  let x : Session Str := ⟨stopRun, t, o⟩
  have hnames : ∀ n ∈ [] ++ x.created, IsFileName .posix (plainConfig.database n).name := by
    change ∀ n ∈ creations o, _
    rw [hcreated]
    decide
  have hx : x.On (plainDir [] (fun _ => {}) (by simp)) (plainDir ([] ++ x.created) t.disk hnames) :=
    on_plainDir ⟨noDatabases, rfl, rfl, hrun⟩ hok (by simp [StopsLast, x, stopRun])
      (by simp [x, stopRun])
  obtain ⟨y, hy, hrun', hok', hnone⟩ : ∃ y : Session Str, y.actions = killedRun ∧
      run (step plainConfig) (started d) y.actions = some (y.final, y.events) ∧
        AllOk y.events ∧ y.created = [] :=
    ⟨⟨killedRun, _, _⟩, rfl, rfl, by simp [AllOk], rfl⟩
  have hnames' : ∀ n ∈ ([] ++ x.created) ++ y.created,
      IsFileName .posix (plainConfig.database n).name := by
    rwa [hnone, List.append_nil]
  have hy' : y.On (plainDir ([] ++ x.created) t.disk hnames)
      (plainDir (([] ++ x.created) ++ y.created) y.final.disk hnames') := by
    refine on_plainDir ⟨d, ?_, rfl, hrun'⟩ hok' ?_ ?_
    · change start plainConfig ((creations o).map plainConfig.path).contains
        t.disk (fun _ => .ok) (some ((creations o).map plainConfig.database)) = _
      rw [hcreated]
      exact start_singleton hrows
    · rw [hy]
      simp [StopsLast, killedRun]
    · rw [hy]
      simp [killedRun]
  exact ⟨_, _, x, y, rfl, hy,
    (sessions_archive _ _ [] _ plainDir_holds (.cons hx (.cons hy' (.nil _)))).1⟩

end SimpleTSDB.Datastore

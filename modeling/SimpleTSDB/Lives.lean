import SimpleTSDB.Http.Reads
import SimpleTSDB.System

/-!
# From the clients to the clients

The program lives many times on one data directory, each life stopped or killed between two steps of
its threads. In every state of the last life a request is answered from what the directory had and
from what the clients have put in all the lives (`lives_read`): everything in a life that was
stopped, and otherwise what had been written when it was killed.
-/

namespace SimpleTSDB

open Transducer Telnet Http Datastore Query

variable {F : Type*}

/-- A life of the program: its steps, the state in which it leaves off, and what it has done. -/
structure Life (F : Type*) where
  actions : List SystemAction
  final : SystemState F
  events : List (SystemEvent F)

namespace Life

variable (x : Life F)

/-- What the clients have put. -/
def puts : List Metric := SimpleTSDB.puts (frontEvents x.actions)

/-- The internal metrics that have been reported. -/
def reported (cfg : Config F) : List Metric := Datastore.reported cfg (ownActions x.actions)

/-- What has been written. -/
def filed : List Metric := written x.final.store (storeEvents x.events)

/-- The names for which databases have been created. -/
def created : List Str := creations (storeEvents x.events)

end Life

variable {sys : Separators} {cfg : Config F}

/-- What a data directory keeps behind some lives. -/
def archiveAfter (dir : DataDir sys cfg) (xs : List (Life F)) : Logs Str Sqlite.Row :=
  (archive dir).addAll ((xs.flatMap Life.filed).map entryOf)

variable [DecidableEq F]

/-- A life on a data directory: the scan finds the databases, and the calls of SQLite succeed. -/
structure Life.Runs (x : Life F) (dir : DataDir sys cfg) (listener : ℕ) (d : Databases F) :
    Prop where
  scanned : Datastore.start cfg dir.present dir.disk (fun _ => .ok) (some dir.entries) =
    some (d.store, true)
  disk : d.disk = dir.disk
  ran : run (systemStep cfg) (.started listener d) x.actions = some (x.final, x.events)
  possible : PossibleRun listener ∅ (telnetEvents (frontEvents x.actions))
  ok : AllOk (storeEvents x.events)

/-- A life that leaves a data directory behind; the names of the metrics are names of files. -/
structure Life.On (x : Life F) (dir dir' : DataDir sys cfg) : Prop where
  runs : ∃ listener d, x.Runs dir listener d
  fileNames : ∀ name ∈ internalNames ++ x.puts.map Metric.name,
    IsFileName sys (cfg.database name).name
  left : dir.Becomes dir' x.created x.final.store.disk

/-- Lives that start on one directory and leave another one behind. -/
inductive Lives : DataDir sys cfg → List (Life F) → DataDir sys cfg → Prop
  | nil (dir : DataDir sys cfg) : Lives dir [] dir
  | cons {dir dir₁ dir' : DataDir sys cfg} {x : Life F} {xs : List (Life F)}
      (hx : x.On dir dir₁) (hxs : Lives dir₁ xs dir') : Lives dir (x :: xs) dir'

/-! ## One life -/

/-- What is filed in a life has been put or reported, and it is all of it if the life was
stopped. -/
def Life.FilesPuts (cfg : Config F) (x : Life F) : Prop :=
  x.filed.Subperm (x.puts ++ x.reported cfg) ∧
    (x.final.store.pc = .stopped → x.filed.Perm (x.puts ++ x.reported cfg))

namespace Life

variable {x : Life F} {dir dir' : DataDir sys cfg} {names : List Str} {listener : ℕ}
  {d : Databases F}

theorem Runs.filesPuts (h : x.Runs dir listener d) : x.FilesPuts cfg := by
  obtain ⟨das, hsim⟩ := simulated_of_run h.ran
  exact ⟨hsim.written_subperm h.possible h.ok, hsim.written_perm h.possible h.ok⟩

/-- The datastore of a life is a session. -/
theorem On.session (hx : x.On dir dir') :
    ∃ y : Session F, y.On dir dir' ∧ y.filed = x.filed := by
  obtain ⟨listener, d, h⟩ := hx.runs
  obtain ⟨das, hsim⟩ := simulated_of_run h.ran
  exact ⟨_, hsim.session ⟨h.scanned, h.disk⟩ h.possible hx.fileNames h.ok hx.left, rfl⟩

/-- What a metric has in the store of a life: what the directory has kept, and what has been
written since. -/
theorem Runs.rowsOf_eq (h : x.Runs dir listener d) (hdir : dir.Holds names)
    (hopen : x.final.store.pc ≠ .stopped) (name : Str) :
    rowsOf x.final.store name = (archive dir).addAll (x.filed.map entryOf) name := by
  obtain ⟨das, hsim⟩ := simulated_of_run h.ran
  have hput : ∀ m, .enqueue m ∈ das → m.name ≠ [] :=
    fun m hm => name_ne_of_mem_puts (hsim.mem_puts h.possible hm)
  have hstart : rowsOf (Datastore.started d) name = archive dir name := by
    rw [hdir.archive_apply]
    by_cases hname : name ∈ names
    · have hmem : (name, cfg.resolve (cfg.path name)) ∈ d.store :=
        (hdir.mem_store_iff h.scanned).mpr ⟨hname, rfl⟩
      obtain ⟨rows, hrows, hfile⟩ := rowsOf_started hmem
      rw [if_pos hname, hrows, ← h.disk, hfile]
    · rw [if_neg hname, rowsOf_started_eq_none]
      intro hmem
      obtain ⟨p, hp, rfl⟩ := List.mem_map.mp hmem
      exact hname ((hdir.mem_store_iff h.scanned).mp hp).1
  have hnil : (x.filed.filter (·.name = name)).map rowOf = [] ↔
      (x.filed.map Metric.name).contains name = false := by
    rw [List.map_eq_nil_iff, List.filter_eq_nil_iff, ← Bool.not_eq_true, List.contains_iff_mem]
    simp
  rw [rowsOf_of_run hsim.datastore hput hsim.stopsLast h.ok hopen, heldRows, hstart,
    Logs.addAll_apply, under_entryOf, ← Life.filed]
  simp only [hnil]
  by_cases hmem : (x.filed.map Metric.name).contains name = true
  · rw [if_pos (by rw [hmem, Bool.or_true]), if_neg (by rw [hmem]; exact Bool.noConfusion)]
  · have hfalse := Bool.eq_false_iff.mpr hmem
    rw [hnil.mpr hfalse, hfalse]
    cases archive dir name <;> simp

end Life

/-! ## All lives -/

/-- Every life adds to the directory what it has filed. -/
theorem Lives.archive_eq {dir dir' : DataDir sys cfg} {names : List Str} {xs : List (Life F)}
    (hxs : Lives dir xs dir') (h : dir.Holds names) :
    archive dir' = archiveAfter dir xs ∧ (∃ names', dir'.Holds names') ∧
      ∀ x ∈ xs, x.FilesPuts cfg := by
  induction hxs generalizing names with
  | nil dir => exact ⟨rfl, ⟨names, h⟩, List.forall_mem_nil _⟩
  | @cons dir dir₁ dir' x xs hx hxs ih =>
    obtain ⟨y, hy, hfiled⟩ := hx.session
    obtain ⟨harchive, hholds, hall⟩ := ih (hy.holds h)
    obtain ⟨listener, d, hruns⟩ := hx.runs
    refine ⟨?_, hholds, List.forall_mem_cons.mpr ⟨hruns.filesPuts, hall⟩⟩
    rw [harchive, archiveAfter, hy.archive_eq h, hfiled, archiveAfter, ← Logs.addAll_append,
      ← List.map_append, List.flatMap_cons]

/-- **What the clients put is what the clients read.** After any number of lives, in every state of
the next one, a request is answered from what the directory had at first and from what all the lives
have filed: what has been put and reported, all of it if the life was stopped. -/
theorem lives_read (tc : ToChars) (sqlite : Engine)
    (aggregate : Aggregator → List Double → Option Double) (dir dir' : DataDir sys cfg)
    (names : List Str) (xs : List (Life F)) (x : Life F) (listener : ℕ) (d : Databases F)
    (now : BitVec 64) (r : QueryRequest) (htc : tc.WritesNumbers)
    (hfns : ∀ a : Aggregator, sqlite.functions a.text = some (aggregate a))
    (hdir : dir.Holds names) (hxs : Lives dir xs dir') (hx : x.Runs dir' listener d)
    (hopen : x.final.store.pc ≠ .stopped) (hnow : now.toNat < 2 ^ 63) (hago : r.ago ≤ now.toNat)
    (hnames : ∀ q ∈ r.subqueries, IsBytes q.metric ∧ '%' ∉ q.metric ∧
      (dumpEscaped q.metric).isSome) :
    (∃ text entries, apiQueryHandler tc sqlite x.final.store now "GET".toList (some r.text) =
        some ([.send okHeader, .send text], 200) ∧ readResponse text = some entries ∧
      List.Forall₂ (fun q => IsAnswer tc aggregate (now.toNat - r.ago) now.toNat
          ((archiveAfter dir (xs ++ [x]) q.metric).getD []) q)
        (r.subqueries.filter fun q => (archiveAfter dir (xs ++ [x]) q.metric).isSome) entries) ∧
      ∀ y ∈ xs ++ [x], y.FilesPuts cfg := by
  obtain ⟨harchive, ⟨names', hholds⟩, hall⟩ := hxs.archive_eq hdir
  have hrows : ∀ name, rowsOf x.final.store name = archiveAfter dir (xs ++ [x]) name := by
    intro name
    rw [hx.rowsOf_eq hholds hopen, harchive, archiveAfter, archiveAfter, ← Logs.addAll_append,
      ← List.map_append, List.flatMap_append, List.flatMap_singleton]
  simp only [← hrows]
  refine ⟨exists_answer tc htc hfns hnow hago hnames, fun y hy => ?_⟩
  rcases List.mem_append.mp hy with hy | hy
  · exact hall y hy
  · exact List.mem_singleton.mp hy ▸ hx.filesPuts

/-- The database of one metric. -/
def cpuDatabases (disk : Str → DbFile)
    (h : (disk (plainConfig.path "cpu".toList)).rows ≠ none) : Databases Str where
  store := [("cpu".toList, plainConfig.path "cpu".toList)]
  disk := disk
  names_nodup := List.nodup_singleton _
  files_nodup := List.nodup_singleton _
  table := List.forall_mem_singleton.mpr h

/-- What was put before the program was stopped is read when it has been started again. -/
theorem lives_read_example : ∃ (dir : DataDir .posix plainConfig) (x y : Life Str) (text : Str)
    (entries : List (Str × List Dps)), x.actions = twoPutsRun ∧ y.actions = [] ∧
      apiQueryHandler zeroChars singleValue y.final.store 5 "GET".toList (some cpuRequest.text) =
        some ([.send okHeader, .send text], 200) ∧ readResponse text = some entries ∧
      List.Forall₂ (fun q => IsAnswer zeroChars (fun _ => List.head?) 0 5
          ((archiveAfter dir [x, y] q.metric).getD []) q)
        (cpuRequest.subqueries.filter fun q => (archiveAfter dir [x, y] q.metric).isSome)
        entries := by
  have hrun : ∃ p ∈ run (systemStep plainConfig) (.started 3 noDatabases) twoPutsRun,
      AllOk (storeEvents p.2) ∧ creations (storeEvents p.2) = ["cpu".toList] ∧
        (p.1.store.disk (plainConfig.path "cpu".toList)).rows ≠ none := by
    decide +kernel
  obtain ⟨⟨t, o⟩, hrun, hok, hcreated, htable⟩ := hrun
  dsimp only at hok hcreated
  have hnames : ∀ n ∈ [] ++ creations (storeEvents o),
      IsFileName .posix (plainConfig.database n).name := by
    rw [hcreated]
    decide
  have hpossible : PossibleRun 3 ∅ (telnetEvents (frontEvents twoPutsRun)) := by decide
  have hfile : ∀ name ∈ internalNames ++ (puts (frontEvents twoPutsRun)).map Metric.name,
      IsFileName .posix (plainConfig.database name).name := by decide +kernel
  let x : Life Str := ⟨twoPutsRun, t, o⟩
  let y : Life Str := ⟨[], .started 3 (cpuDatabases t.store.disk htable), []⟩
  have hx : x.On (plainDir [] (fun _ => {}) (by simp))
      (plainDir ([] ++ x.created) t.store.disk hnames) :=
    ⟨⟨3, noDatabases, rfl, rfl, hrun, hpossible, hok⟩, hfile, plainDir_becomes _ _⟩
  have hy : y.Runs (plainDir ([] ++ x.created) t.store.disk hnames) 3
      (cpuDatabases t.store.disk htable) := by
    refine ⟨?_, rfl, rfl, trivial, List.not_mem_nil⟩
    have hscan := @start_singleton "cpu".toList t.store.disk (Option.isSome_iff_ne_none.mpr htable)
    rw [← hcreated] at hscan
    exact hscan
  obtain ⟨⟨text, entries, hsent, hread, hall⟩, -⟩ := lives_read zeroChars singleValue
    (fun _ => List.head?) _ _ [] [x] y 3 (cpuDatabases t.store.disk htable) 5 cpuRequest
    zeroChars_writesNumbers functions_singleValue plainDir_holds (.cons hx (.nil _)) hy
    Pc.noConfusion (by decide) (by decide) cpuRequest_names
  exact ⟨_, x, y, text, entries, rfl, rfl, hsent, hread, hall⟩

end SimpleTSDB

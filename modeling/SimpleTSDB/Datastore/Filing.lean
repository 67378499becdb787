import Mathlib.Data.List.Nodup
import SimpleTSDB.Datastore.Process

/-!
# Where metrics are filed

`Filed` says what the databases hold when some metrics have been written: every connected file holds
the rows it had at the start and the metrics with its name, in order, and the other files are as
they were. Writing a metric to the file of its name and connecting a new name to a file without a
table keep it (`Filed.write`, `Filed.connect`), and so does the body of the loops
(`storeMetric_filed`).
-/

namespace SimpleTSDB.Datastore

open Sqlite

variable {F : Type*}

/-! ## Observations of a run -/

/-- The metrics that were queued, in order. -/
def enqueued (es : List (Event F)) : List Metric :=
  es.filterMap fun | .enqueued m => some m | _ => none

/-- The metrics that the queue handed out, in order. -/
def dequeued (es : List (Event F)) : List Metric :=
  es.filterMap fun | .dequeued m => some m | _ => none

/-- The names for which a database was created. -/
def creations (es : List (Event F)) : List Str :=
  es.filterMap fun | .createDatabase name => some name | _ => none

/-- The connections that were added. -/
def connections (es : List (Event F)) : List (Str × F) :=
  es.filterMap fun | .connected name file => some (name, file) | _ => none

/-- All calls of SQLite succeed. -/
def AllOk (es : List (Event F)) : Prop := .sqlite false ∉ es

instance [DecidableEq F] (es : List (Event F)) : Decidable (AllOk es) :=
  inferInstanceAs (Decidable (.sqlite false ∉ es))

@[simp] theorem enqueued_append (es es' : List (Event F)) :
    enqueued (es ++ es') = enqueued es ++ enqueued es' := List.filterMap_append

@[simp] theorem dequeued_append (es es' : List (Event F)) :
    dequeued (es ++ es') = dequeued es ++ dequeued es' := List.filterMap_append

@[simp] theorem creations_append (es es' : List (Event F)) :
    creations (es ++ es') = creations es ++ creations es' := List.filterMap_append

@[simp] theorem connections_append (es es' : List (Event F)) :
    connections (es ++ es') = connections es ++ connections es' := List.filterMap_append

theorem allOk_append {es es' : List (Event F)} : AllOk (es ++ es') ↔ AllOk es ∧ AllOk es' := by
  simp [AllOk]

theorem dequeued_map (batch : List Metric) :
    dequeued (batch.map (Event.dequeued (F := F))) = batch := by
  simp [dequeued, List.filterMap_map]

/-- The creation of a database that is connected. -/
theorem observe_creation (name : Str) (file : F) (es : List (Event F)) :
    creations (.createDatabase name :: .connected name file :: es) = name :: creations es ∧
    connections (.createDatabase name :: .connected name file :: es) =
      (name, file) :: connections es := ⟨rfl, rfl⟩

/-- The results of calls of SQLite say nothing else. -/
theorem observe_calls (calls : List Bool) :
    enqueued (calls.map (Event.sqlite (F := F))) = [] ∧
    dequeued (calls.map (Event.sqlite (F := F))) = [] ∧
    creations (calls.map (Event.sqlite (F := F))) = [] ∧
    connections (calls.map (Event.sqlite (F := F))) = [] := by
  simp [enqueued, dequeued, creations, connections, List.filterMap_map]

/-! ## Filing -/

/-- The databases bound to names by `bs`, when the metrics `done` have been written. -/
structure Filed (d : Databases F) (bs : List (Str × F)) (done : List Metric)
    (disk : F → DbFile) : Prop where
  names_nodup : (bs.map Prod.fst).Nodup
  files_nodup : (bs.map Prod.snd).Nodup
  rows : ∀ p ∈ bs, (disk p.2).rows =
    some ((d.disk p.2).rows.getD [] ++ (done.filter (·.name = p.1)).map rowOf)
  known : ∀ m ∈ done, m.name ∈ bs.map Prod.fst
  other : ∀ f, f ∉ bs.map Prod.snd → disk f = d.disk f

namespace Filed

/-- At the start nothing has been written. -/
theorem start (d : Databases F) : Filed d d.store [] d.disk where
  names_nodup := d.names_nodup
  files_nodup := d.files_nodup
  rows p hp := by
    obtain ⟨rows, hrows⟩ := Option.ne_none_iff_exists'.mp (d.table p hp)
    simp [hrows]
  known := nofun
  other _ _ := rfl

variable [DecidableEq F] {d : Databases F} {bs : List (Str × F)} {done : List Metric}
  {disk : F → DbFile}

/-- A metric is written to the file of its name. -/
theorem write (h : Filed d bs done disk) {m : Metric} {file : F} (hm : (m.name, file) ∈ bs)
    {rows : List Row} {db : DbFile} (hrows : (disk file).rows = some rows)
    (hdb : db.rows = some (rows ++ [rowOf m])) :
    Filed d bs (done ++ [m]) (Function.update disk file db) where
  names_nodup := h.names_nodup
  files_nodup := h.files_nodup
  rows p hp := by
    by_cases hf : p.2 = file
    · obtain rfl := List.inj_on_of_nodup_map h.files_nodup hp hm hf
      have hold := h.rows _ hp
      rw [hrows, Option.some.injEq] at hold
      rw [Function.update_self, hdb, hold]
      simp
    · have hn : ¬ m.name = p.1 := fun hn =>
        hf (congrArg Prod.snd (List.inj_on_of_nodup_map h.names_nodup hp hm hn.symm))
      rw [Function.update_of_ne hf, h.rows p hp]
      simp [hn]
  known x hx := by
    rcases List.mem_append.mp hx with hx | hx
    · exact h.known x hx
    · rw [List.mem_singleton.mp hx]
      exact List.mem_map.mpr ⟨_, hm, rfl⟩
  other f hf := by
    have hne : f ≠ file := by
      rintro rfl
      exact hf (List.mem_map.mpr ⟨_, hm, rfl⟩)
    rw [Function.update_of_ne hne, h.other f hf]

/-- A new name is connected to a file that had no table. -/
theorem connect (h : Filed d bs done disk) {name : Str} {file : F} (hname : name ∉ bs.map Prod.fst)
    (hrows : (disk file).rows = none) {db : DbFile} (hdb : db.rows = some []) :
    Filed d (bs ++ [(name, file)]) done (Function.update disk file db) := by
  have hfile : file ∉ bs.map Prod.snd := by
    intro hmem
    obtain ⟨p, hp, rfl⟩ := List.mem_map.mp hmem
    rw [h.rows p hp] at hrows
    cases hrows
  refine ⟨?_, ?_, ?_, ?_, ?_⟩
  · rw [List.map_append, List.map_singleton, ← List.concat_eq_append]
    exact h.names_nodup.concat hname
  · rw [List.map_append, List.map_singleton, ← List.concat_eq_append]
    exact h.files_nodup.concat hfile
  · intro p hp
    rcases List.mem_append.mp hp with hp | hp
    · have hne : p.2 ≠ file := fun hpf => hfile (hpf ▸ List.mem_map_of_mem hp)
      rw [Function.update_of_ne hne, h.rows p hp]
    · obtain rfl := List.mem_singleton.mp hp
      -- no metric of the new name has been written
      have hnone : done.filter (fun m => m.name = name) = [] := by
        rw [List.filter_eq_nil_iff]
        intro m hm
        rw [decide_eq_true_iff]
        rintro rfl
        exact hname (h.known m hm)
      rw [Function.update_self, hdb, ← h.other file hfile, hrows, hnone]
      rfl
  · intro m hm
    rw [List.map_append]
    exact List.mem_append_left _ (h.known m hm)
  · intro f hf
    rw [List.map_append, List.mem_append, not_or] at hf
    have hne : f ≠ file := fun hff => hf.2 (by simp [hff])
    rw [Function.update_of_ne hne, h.other f hf.1]

end Filed

/-! ## The body of the loops -/

theorem mem_of_lookup {bs : List (Str × F)} {name : Str} {file : F}
    (h : bs.lookup name = some file) : (name, file) ∈ bs := by
  obtain ⟨l, r, rfl, -⟩ := List.lookup_eq_some_iff.mp h
  simp

theorem not_mem_of_lookup {bs : List (Str × F)} {name : Str} (h : bs.lookup name = none) :
    name ∉ bs.map Prod.fst := by
  intro hmem
  obtain ⟨p, hp, rfl⟩ := List.mem_map.mp hmem
  simpa using List.lookup_eq_none_iff.mp h p hp

variable [DecidableEq F]

/-- Only the connections and the files change. -/
theorem storeMetric_frame (cfg : Config F) (o : Outcome) (s : State F) (m : Metric) :
    storeMetric cfg o s m = ({ s with
      store := (storeMetric cfg o s m).1.store
      disk := (storeMetric cfg o s m).1.disk }, (storeMetric cfg o s m).2) := by
  rw [storeMetric]
  split
  · rfl
  · split <;> rfl

/-- Nothing is queued or taken from the queue. -/
theorem storeMetric_quiet (cfg : Config F) (o : Outcome) (s : State F) (m : Metric) :
    enqueued (storeMetric cfg o s m).2 = [] ∧ dequeued (storeMetric cfg o s m).2 = [] := by
  have hcalls (calls : List Bool) := observe_calls (F := F) calls
  rw [storeMetric]
  split
  · exact ⟨(hcalls _).1, (hcalls _).2.1⟩
  · split
    · exact ⟨(hcalls _).1, (hcalls _).2.1⟩
    · exact ⟨(hcalls _).1, (hcalls _).2.1⟩

/-- **The body of the loops files one metric**: under its own name, in a database that is created
exactly if the name had no connection. -/
theorem storeMetric_filed {cfg : Config F} {o : Outcome} {s s' : State F} {m : Metric}
    {es : List (Event F)} {d : Databases F} {done : List Metric} (hname : m.name ≠ [])
    (h : Filed d s.store done s.disk) (hs : storeMetric cfg o s m = (s', es)) (hok : AllOk es) :
    enqueued es = [] ∧ dequeued es = [] ∧ creations es = (connections es).map Prod.fst ∧
      s'.store = s.store ++ connections es ∧ Filed d s'.store (done ++ [m]) s'.disk := by
  rw [storeMetric] at hs
  split at hs
  next file hfile =>
    cases hw : writeMetric o s.disk file m with
    | mk disk calls =>
      simp only [hw, Prod.mk.injEq] at hs
      obtain ⟨rfl, rfl⟩ := hs
      obtain ⟨he, hd, hcr, hco⟩ := observe_calls (F := F) calls
      obtain ⟨rows, db, hrows, hdb, rfl⟩ := writeMetric_ok hw (by simpa [AllOk] using hok)
      refine ⟨he, hd, by rw [hcr, hco]; rfl, by rw [hco, List.append_nil], ?_⟩
      exact h.write (mem_of_lookup hfile) hrows hdb
  next hnone =>
    cases hc : createDatabase cfg o s.disk m.name with
    | mk disk p =>
      obtain ⟨conn, calls⟩ := p
      cases conn with
      | none =>
        simp only [hc, Prod.mk.injEq] at hs
        obtain ⟨-, rfl⟩ := hs
        have hcalls : false ∉ calls := by simpa [AllOk] using hok
        cases (createDatabase_ok hname hc hcalls).1
      | some file =>
        cases hw : writeMetric o disk file m with
        | mk disk' calls' =>
          simp only [hc, hw, Prod.mk.injEq] at hs
          obtain ⟨rfl, rfl⟩ := hs
          have hcalls : false ∉ calls ∧ false ∉ calls' := by simpa [AllOk, not_or] using hok
          obtain ⟨he, hd, hcr, hco⟩ := observe_calls (F := F) (calls ++ calls')
          obtain ⟨hconn, htable, db, hdb, rfl⟩ := createDatabase_ok hname hc hcalls.1
          obtain rfl := Option.some.inj hconn
          obtain ⟨rows, db', hrows, hdb', rfl⟩ := writeMetric_ok hw hcalls.2
          have hconnect := h.connect (not_mem_of_lookup hnone) htable hdb
          refine ⟨he, hd, ?_, ?_, ?_⟩
          · rw [(observe_creation _ _ _).1, (observe_creation _ _ _).2, hcr, hco]
            rfl
          · rw [(observe_creation _ _ _).2, hco]
          · exact hconnect.write (by simp) hrows hdb'

end SimpleTSDB.Datastore

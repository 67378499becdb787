import SimpleTSDB.Datastore.Drain
import SimpleTSDB.Statistics.Counts

/-!
# Polls of the statistics

The datastore polls the statistics and queues the internal metrics if there are new ones, and the
statistics page shows them. Both use `GetStats`, which marks the statistics as seen. A run is a
sequence of publications, polls and requests of the page, each of them atomic. What the polls of a
run queue is a function of the run without the page requests and of the polls that a page request
has come in before (`queued_of_run`), so that the page requests of two runs can be told apart
exactly by the latter (`polls_agree_iff`).
-/

namespace SimpleTSDB.Statistics

open Datastore Transducer

/-- A call: the statistics are published, the datastore polls them at a time, or the page is
requested. -/
inductive Call where
  | publish (stats : Stats)
  | poll (timestamp : BitVec 64)
  | page

/-- The requests of the page aside. -/
def Call.isPage : Call → Bool
  | .page => true
  | _ => false

/-- What a poll queues, and what a request of the page shows. -/
inductive Reply where
  | queued (ms : List Metric)
  | shown (stats : Option Stats)

variable {F : Type*}

/-- A call. -/
def callStep (cfg : Config F) (p : Published) : Call → Option (Published × List Reply)
  | .publish stats => some (⟨stats, true⟩, [])
  | .poll timestamp =>
    let (stats, p) := getStats p true
    let ms := stats.elim [] fun stats => internalMetrics cfg stats timestamp
    some (p, [.queued ms])
  | .page =>
    let (stats, p) := getStats p false
    some (p, [.shown stats])

/-- The metrics that the polls queue, one list for each of them. -/
def queued (rs : List Reply) : List (List Metric) :=
  rs.filterMap fun | .queued ms => some ms | .shown _ => none

/-- For every poll with new statistics: has the page been requested since they were published? The
flags say this of the statistics at the start. -/
def lookedAt (new seen : Bool) : List Call → List Bool
  | [] => []
  | .publish _ :: cs => lookedAt true false cs
  | .poll _ :: cs => if new then seen :: lookedAt false false cs else lookedAt false false cs
  | .page :: cs => lookedAt new true cs

/-- What the polls of a run without page requests queue, if those whose flag is set find nothing. -/
def answers (cfg : Config F) (stats : Stats) (new : Bool) :
    List Call → List Bool → List (List Metric)
  | [], _ => []
  | .publish stats :: cs, seens => answers cfg stats true cs seens
  | .poll timestamp :: cs, seens =>
    if new then
      (if seens.headD false then [] else internalMetrics cfg stats timestamp) ::
        answers cfg stats false cs seens.tail
    else [] :: answers cfg stats false cs seens
  | .page :: cs, seens => answers cfg stats new cs seens

/-- A poll queues the internal metrics if the statistics are updated. -/
theorem callStep_poll (cfg : Config F) (p : Published) (timestamp : BitVec 64) :
    callStep cfg p (.poll timestamp) = some (⟨p.stats, false⟩,
      [.queued (if p.updated then internalMetrics cfg p.stats timestamp else [])]) := by
  obtain ⟨stats, updated⟩ := p
  cases updated <;> rfl

/-- **What a run queues** depends on the page requests by the polls that they come in before. -/
theorem queued_of_run (cfg : Config F) {cs : List Call} {p q : Published} {rs : List Reply}
    {new seen : Bool} (hupdated : p.updated = (new && !seen))
    (h : run (callStep cfg) p cs = some (q, rs)) :
    queued rs = answers cfg p.stats new (cs.filter (!·.isPage)) (lookedAt new seen cs) := by
  induction cs generalizing p rs new seen with
  | nil =>
    obtain ⟨-, rfl⟩ := Prod.mk.inj (Option.some.inj h)
    rfl
  | cons c cs ih =>
    obtain ⟨p', rs₁, rs₂, hs, hrun, rfl⟩ := run_cons_eq_some_iff.mp h
    cases c with
    | publish stats =>
      obtain ⟨rfl, rfl⟩ := Prod.mk.inj (Option.some.inj hs)
      have hnew : (Published.mk stats true).updated = (true && !false) := rfl
      exact ih hnew hrun
    | poll timestamp =>
      have hfilter : (Call.poll timestamp :: cs).filter (!·.isPage) =
          .poll timestamp :: cs.filter (!·.isPage) := rfl
      rw [callStep_poll] at hs
      obtain ⟨rfl, rfl⟩ := Prod.mk.inj (Option.some.inj hs)
      have hold : (Published.mk p.stats false).updated = (false && !false) := rfl
      have htail := ih hold hrun
      rw [hfilter, lookedAt, answers]
      change _ :: queued rs₂ = _
      rw [htail, hupdated]
      -- the poll returns statistics if there are new ones that the page has not shown
      cases new with
      | false => rfl
      | true => cases seen <;> rfl
    | page =>
      obtain ⟨rfl, rfl⟩ := Prod.mk.inj (Option.some.inj hs)
      have hseen : (getStats p false).2.updated = (new && !true) := (Bool.and_false new).symm
      have htail := ih hseen hrun
      exact htail

/-- How many polls have new statistics does not depend on the page requests. -/
theorem length_lookedAt (new seen : Bool) (cs : List Call) :
    (lookedAt new seen cs).length = (lookedAt new false (cs.filter (!·.isPage))).length := by
  induction cs generalizing new seen with
  | nil => rfl
  | cons c cs ih =>
    cases c with
    | publish stats => exact ih true false
    | poll timestamp =>
      have hfilter : (Call.poll timestamp :: cs).filter (!·.isPage) =
          .poll timestamp :: cs.filter (!·.isPage) := rfl
      rw [hfilter, lookedAt, lookedAt]
      cases new with
      | true => exact congrArg (· + 1) (ih false false)
      | false => exact ih false false
    | page => exact ih new true

/-- The answers tell the flags. -/
theorem answers_inj (cfg : Config F) {stats : Stats} {new : Bool} {cs : List Call}
    {seens seens' : List Bool} (hlen : seens.length = (lookedAt new false cs).length)
    (hlen' : seens'.length = (lookedAt new false cs).length)
    (h : answers cfg stats new cs seens = answers cfg stats new cs seens') : seens = seens' := by
  induction cs generalizing stats new seens seens' with
  | nil => rw [List.length_eq_zero_iff.mp hlen, List.length_eq_zero_iff.mp hlen']
  | cons c cs ih =>
    cases c with
    | publish stats => exact ih hlen hlen' h
    | poll timestamp =>
      rw [answers, answers] at h
      rw [lookedAt] at hlen hlen'
      cases new with
      | false => exact ih hlen hlen' (List.cons.inj h).2
      | true =>
        obtain ⟨seen, seens, rfl⟩ := List.exists_cons_of_length_eq_add_one hlen
        obtain ⟨seen', seens', rfl⟩ := List.exists_cons_of_length_eq_add_one hlen'
        obtain ⟨hhead, htail⟩ := List.cons.inj h
        rw [ih (Nat.succ.inj hlen) (Nat.succ.inj hlen') htail]
        cases seen <;> cases seen' <;> simp [internalMetrics] at hhead ⊢
    | page =>
      refine ih (hlen.trans ?_) (hlen'.trans ?_) h
      · rw [length_lookedAt new false, length_lookedAt new false cs]
        rfl
      · rw [length_lookedAt new false, length_lookedAt new false cs]
        rfl

/-- **Two runs that differ in the page requests queue the same internal metrics exactly if** every
poll with new statistics comes behind a page request in both of them or in neither. -/
theorem polls_agree_iff (cfg : Config F) (p : Published) (as bs : List Call) (q q' : Published)
    (rs rs' : List Reply) (hrun : run (callStep cfg) p as = some (q, rs))
    (hrun' : run (callStep cfg) p bs = some (q', rs'))
    (hsame : as.filter (!·.isPage) = bs.filter (!·.isPage)) :
    queued rs = queued rs' ↔ lookedAt p.updated false as = lookedAt p.updated false bs := by
  have hupdated : p.updated = (p.updated && !false) := by simp
  rw [queued_of_run cfg hupdated hrun, queued_of_run cfg hupdated hrun', hsame]
  constructor
  · refine answers_inj cfg ?_ (length_lookedAt _ _ _)
    rw [length_lookedAt, hsame]
  · intro h
    rw [h]

/-- Some statistics. -/
def someStats : Stats := ⟨.fin false 1 0, .fin false 1 0, .fin false 0 0⟩

/-- The page is requested before the statistics are published, or after the poll. -/
theorem polls_agree_example : ∃ q q' rs rs',
    run (callStep plainConfig) ⟨someStats, false⟩ [.page, .publish someStats, .poll 1] =
        some (q, rs) ∧
      run (callStep plainConfig) ⟨someStats, false⟩ [.publish someStats, .poll 1, .page] =
        some (q', rs') ∧ (queued rs = queued rs' ↔
      lookedAt false false [.page, .publish someStats, .poll 1] =
        lookedAt false false [.publish someStats, .poll 1, .page]) :=
  ⟨_, _, _, _, rfl, rfl, polls_agree_iff plainConfig ⟨someStats, false⟩
    [.page, .publish someStats, .poll 1] [.publish someStats, .poll 1, .page] _ _ _ _ rfl rfl rfl⟩

/-- **A page request hides the statistics from the next poll.** -/
theorem not_polls_agree : ¬ ∀ (p : Published) (as bs : List Call) (q q' : Published)
    (rs rs' : List Reply), run (callStep plainConfig) p as = some (q, rs) →
      run (callStep plainConfig) p bs = some (q', rs') →
        as.filter (!·.isPage) = bs.filter (!·.isPage) → queued rs = queued rs' := by
  intro h
  have heq := h ⟨someStats, false⟩ [.publish someStats, .page, .poll 1]
    [.publish someStats, .poll 1] _ _ _ _ rfl rfl rfl
  cases heq

end SimpleTSDB.Statistics

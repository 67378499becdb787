import SimpleTSDB.Telnet.Line

/-!
# The HTTP put handler

`ApiPutHandler` reads the request body line by line, cleans each line and hands it to the parser of
the telnet interface. It stops at the first line that is not valid; unlike the telnet interface it
does not count the fields of a line. `frontEnds_agree_iff` compares the two on one line.
-/

namespace SimpleTSDB.Http

open Transducer

/-- `std::getline`: the next line and what is left; `none` at the end of the stream. -/
def getline (s : Str) : Option (Str × Str) :=
  if s = [] then none else some (s.takeWhile (· != '\n'), (s.dropWhile (· != '\n')).tail)

theorem getline_length {s line rest : Str} (h : getline s = some (line, rest)) :
    rest.length < s.length := by
  rw [getline] at h
  split at h
  · cases h
  · rename_i hne
    obtain ⟨-, rfl⟩ := Prod.mk.inj (Option.some.inj h)
    have := (List.dropWhile_suffix (· != '\n') (l := s)).length_le
    have := List.length_pos_iff.mpr hne
    rw [List.length_tail]
    omega

/-- `mg_write_400`, which writes the status line of an internal server error. -/
def mgWrite400 (error : Str) : List Effect × ℕ :=
  ([.send ("HTTP/1.1 500 Internal Server Error\r\nContent-Type: text/html\r\n".toList ++
      "Connection: close\r\n\r\n".toList),
    .send ("Error 400: ".toList ++ error)], 400)

/-- The refusal of a request method. -/
def methodNotAllowed (method : Str) : List Effect × ℕ :=
  ([.send ("HTTP/1.1 405 Method Not Allowed\r\nContent-Type: text/html\r\n".toList ++
      "Connection: close\r\n\r\n".toList),
    .send ("Error 405: ".toList ++ method ++ " requests not allowed for this endpoint.".toList)],
    405)

/-- The loop over the lines of the stream; `count` lines have been queued. The result is the
effects and the status code, `none` if a `substr` throws. -/
def putLoop (stream : Str) (count : ℕ) : Option (List Effect × ℕ) :=
  match _h : getline stream with
  | none => some ([.addPutCount count], 200)
  | some (line, rest) =>
    -- clean the line
    let line := line.filter (!isValidChar ·)
    -- the line may be empty, so check that
    if line.length = 0 then putLoop rest count
    else match Metric.ofLine line with
      | none => none
      | some metric =>
        if metric.isValid then
          (putLoop rest (count + 1)).map fun p =>
            (.queueMetric metric :: .send "HTTP/1.1 200 OK\r\nConnection: close\r\n\r\n".toList ::
              p.1, p.2)
        else some (mgWrite400 ("put: invalid value: ".toList ++ metric.error ++ "\r\n".toList))
termination_by stream.length
decreasing_by all_goals exact getline_length ‹_›

/-- `ApiPutHandler` for a request whose body `mg_read` has stored in the zeroed buffer. -/
def apiPutHandler (method body : Str) : Option (List Effect × ℕ) :=
  if method ≠ "POST".toList then some (methodNotAllowed method)
  else if 0 < body.length then putLoop (cstr body) 0
  else some ([], 200)

theorem filter_not_isValidChar (line : Str) : line.filter (!isValidChar ·) = cleanLine line := by
  simp only [isValidChar_eq_not_lineChar, Bool.not_not, cleanLine]

theorem putLoop_nil (count : ℕ) : putLoop [] count = some ([.addPutCount count], 200) := by
  rw [putLoop]
  rfl

/-- One round of the loop. -/
theorem putLoop_of_getline {stream line rest : Str} (h : getline stream = some (line, rest))
    (count : ℕ) : putLoop stream count =
      if (cleanLine line).length = 0 then putLoop rest count
      else match Metric.ofLine (cleanLine line) with
        | none => none
        | some metric =>
          if metric.isValid then
            (putLoop rest (count + 1)).map fun p =>
              (.queueMetric metric ::
                .send "HTTP/1.1 200 OK\r\nConnection: close\r\n\r\n".toList :: p.1, p.2)
          else
            some (mgWrite400 ("put: invalid value: ".toList ++ metric.error ++ "\r\n".toList)) := by
  rw [putLoop]
  split
  next hg =>
    rw [h] at hg
    cases hg
  next hg =>
    rw [h] at hg
    obtain ⟨rfl, rfl⟩ := Prod.mk.inj (Option.some.inj hg)
    rw [filter_not_isValidChar]

/-- A stream without a newline is one line. -/
theorem getline_of_not_mem {s : Str} (h : '\n' ∉ s) (hne : s ≠ []) : getline s = some (s, []) := by
  have hall : ∀ c ∈ s, (c != '\n') = true := by
    intro c hc
    rw [bne_iff_ne]
    rintro rfl
    exact h hc
  rw [getline, if_neg hne, List.takeWhile_eq_self_iff.mpr hall,
    List.dropWhile_eq_nil_iff.mpr hall]
  rfl

/-- One line: it is queued if the parser accepts it. -/
theorem putLoop_line {s : Str} (h : '\n' ∉ s) (hne : s ≠ []) (count : ℕ) :
    ∃ es status, putLoop s count = some (es, status) ∧
      queued es = (Metric.accepted (cleanLine s)).toList := by
  rw [putLoop_of_getline (getline_of_not_mem h hne)]
  by_cases hc : cleanLine s = []
  · refine ⟨[.addPutCount count], 200, by simp [hc, putLoop_nil], ?_⟩
    rw [hc, Metric.accepted_blankless List.not_mem_nil]
    rfl
  · obtain ⟨m, hm⟩ := Metric.ofLine_isSome (cleanLine s)
    simp only [List.length_eq_zero_iff, hc, if_false, hm, Metric.accepted, Option.filter_some]
    cases hv : m.isValid with
    | false => exact ⟨_, _, rfl, by simp [queued]⟩
    | true => exact ⟨_, _, by simp [putLoop_nil]; exact ⟨rfl, rfl⟩, by simp [queued]⟩

/-- **What a request queues** is what the parser accepts of filtered text. -/
theorem accepted_of_putLoop {stream : Str} {count : ℕ} {es : List Effect} {status : ℕ} {m : Metric}
    (h : putLoop stream count = some (es, status)) (hm : m ∈ queued es) :
    ∃ l, CleanLine l ∧ Metric.accepted l = some m := by
  induction hn : stream.length using Nat.strongRecOn generalizing stream count es with
  | ind n ih =>
    cases hg : getline stream with
    | none =>
      rw [getline, ite_eq_left_iff] at hg
      obtain rfl : stream = [] := by
        by_contra hne
        cases hg hne
      rw [putLoop_nil] at h
      obtain ⟨rfl, -⟩ := Prod.mk.inj (Option.some.inj h)
      simp [queued] at hm
    | some p =>
      obtain ⟨line, rest⟩ := p
      have hlt : rest.length < n := hn ▸ getline_length hg
      obtain ⟨metric, hmetric⟩ := Metric.ofLine_isSome (cleanLine line)
      simp only [putLoop_of_getline hg, hmetric] at h
      split at h
      · exact ih _ hlt h hm rfl
      · split at h
        next hvalid =>
          obtain ⟨⟨es', status'⟩, hrest, heq⟩ := Option.map_eq_some_iff.mp h
          obtain ⟨rfl, rfl⟩ := Prod.mk.inj heq
          rcases List.mem_cons.mp hm with rfl | hm
          · exact ⟨cleanLine line, cleanLine_clean line,
              Metric.accepted_eq_some_iff.mpr ⟨hmetric, hvalid⟩⟩
          · exact ih _ hlt hrest hm rfl
        next =>
          obtain ⟨rfl, -⟩ := Prod.mk.inj (Option.some.inj h)
          simp [queued] at hm

/-! ## The two front ends -/

/-- The metrics that the line `put L` queues on a telnet connection with an empty line buffer. -/
def telnetQueued (L : Str) : List Metric :=
  (run Telnet.byteStep [] ("put ".toList ++ L ++ ['\n'])).elim [] fun p => queued p.2

/-- The metrics that posting the body `L` queues. -/
def httpQueued (L : Str) : List Metric :=
  (apiPutHandler "POST".toList L).elim [] fun p => queued p.1

/-- Both front ends queue a metric or none, and the metrics have the same fields. -/
def FrontEndsAgree (L : Str) : Prop :=
  (telnetQueued L ≠ [] ↔ httpQueued L ≠ []) ∧
    ∀ m ∈ telnetQueued L, ∀ m' ∈ httpQueued L,
      m.name = m'.name ∧ m.timestamp = m'.timestamp ∧ m.value = m'.value ∧ m.tags = m'.tags

/-- A line that passes the checks of the parser and has so many blanks that their count wraps to
less than five in the telnet processor. -/
def WrappedLine (line : Str) : Prop :=
  (BitVec.ofNat 32 (line.count ' ' + 2)).toInt < 5 ∧
  match line.splitOn ' ' with
  | a :: b :: c :: d :: ds => a ≠ [] ∧ d :: ds ≠ [[]] ∧ (strtoull b).2 = [] ∧ (strtod c).2 = []
  | _ => False

instance (line : Str) : Decidable (WrappedLine line) := by
  unfold WrappedLine
  refine @instDecidableAnd _ _ (Int.decLt _ _) ?_
  rcases line.splitOn ' ' with _ | ⟨a, _ | ⟨b, _ | ⟨c, _ | ⟨d, ds⟩⟩⟩⟩ <;> infer_instance

/-- The long lines that telnet refuses are the accepted lines with three blanks or more that are
not counted as enough. -/
theorem wrappedLine_iff {line : Str} (h : CleanLine line) : WrappedLine line ↔
    (BitVec.ofNat 32 (line.count ' ' + 2)).toInt < 5 ∧ 3 ≤ line.count ' ' ∧
      Metric.accepted line ≠ none := by
  refine and_congr_right fun _ => ?_
  cases Metric.shape line with
  | blankless hx => simp [List.splitOn_eq_singleton hx, List.count_eq_zero.mpr hx]
  | @one x y hx hy => simp [splitOn_one hx hy, List.count_eq_zero.mpr hx, List.count_eq_zero.mpr hy]
  | @two x y z hx hy hz =>
    simp [splitOn_two hx hy hz, List.count_eq_zero.mpr hx, List.count_eq_zero.mpr hy,
      List.count_eq_zero.mpr hz]
  | @many a b c ha hb hc d =>
    obtain ⟨d₀, ds, hd⟩ := List.exists_cons_of_ne_nil (List.splitOn_ne_nil ' ' d)
    have hnil : d ≠ [] ↔ d₀ :: ds ≠ [[]] := by
      rw [← hd, ne_eq, ne_eq, splitOn_eq_nil_singleton_iff]
    have hcount : 3 ≤ (a ++ ' ' :: (b ++ ' ' :: (c ++ ' ' :: d))).count ' ' := by
      simp only [List.count_append, List.count_cons_self]
      omega
    rw [and_iff_right hcount, Metric.accepted_many ha hb hc, splitOn_many ha hb hc, hd,
      h.of_append_cons.2.of_append_cons.1.cstr_eq,
      h.of_append_cons.2.of_append_cons.2.of_append_cons.1.cstr_eq]
    dsimp only
    rw [← hnil]
    simp

/-- HTTP queues what the parser accepts. -/
theorem httpQueued_eq {L : Str} (hn : '\n' ∉ L) (h0 : '\x00' ∉ L) :
    httpQueued L = (Metric.accepted (cleanLine L)).toList := by
  rw [httpQueued, apiPutHandler]
  rcases eq_or_ne L [] with rfl | hne
  · rw [show cleanLine [] = [] from rfl, Metric.accepted_blankless List.not_mem_nil]
    rfl
  · obtain ⟨es, status, hl, hq⟩ := putLoop_line hn hne 0
    simp [List.length_pos_iff, hne, cstr_eq_self h0, hl, hq]

/-- Telnet queues what the parser accepts, if the blanks of the line are counted as enough. -/
theorem telnetQueued_eq {L : Str} (hn : '\n' ∉ L) :
    telnetQueued L =
      if (BitVec.ofNat 32 ((cleanLine L).count ' ' + 2)).toInt < 5 then []
      else (Metric.accepted (cleanLine L)).toList := by
  have hmem : '\n' ∉ "put ".toList ++ L := by simpa using hn
  have hclean : cleanLine ("put ".toList ++ L) = "put ".toList ++ cleanLine L := by
    rw [cleanLine, List.filter_append]
    rfl
  have hcount : ("put ".toList ++ cleanLine L).count ' ' = (cleanLine L).count ' ' + 1 := by
    rw [List.count_append, Nat.add_comm]
    rfl
  have hstrip : Telnet.stripsFirst ("put ".toList ++ cleanLine L) = false := rfl
  have hput : findStr ("put ".toList ++ cleanLine L) "put".toList = some 0 :=
    findStr_eq_zero_iff.mpr ⟨' ' :: cleanLine L, rfl⟩
  have hsub : substrFrom ("put ".toList ++ cleanLine L) 4 = some (cleanLine L) :=
    substrFrom_append _ rfl
  obtain ⟨m, hm⟩ := Metric.ofLine_isSome (cleanLine L)
  rw [telnetQueued, Telnet.run_byteStep_newline hmem, List.nil_append, hclean,
    Telnet.dispatchLine, hstrip]
  simp only [Bool.false_eq_true, if_false, Option.bind_eq_bind, Option.bind_some, hput, if_true,
    Telnet.dispatchPut, Telnet.paramCount_eq, hcount]
  by_cases hfew : (BitVec.ofNat 32 ((cleanLine L).count ' ' + 2)).toInt < 5
  · rw [if_pos hfew, if_pos hfew]
    simp [queued]
  · rw [if_neg hfew, if_neg hfew, hsub, Option.bind_some, hm, Option.bind_some, Metric.accepted, hm,
      Option.filter_some]
    cases m.isValid <;> simp [queued]

/-- **The front ends agree on all lines** but the short ones that slip through and the long ones
whose blanks wrap the counter. -/
theorem frontEnds_agree_iff (L : Str) (hn : '\n' ∉ L) (h0 : '\x00' ∉ L) :
    FrontEndsAgree L ↔ ¬ LooseLine (cleanLine L) ∧ ¬ WrappedLine (cleanLine L) := by
  have hclean := cleanLine_clean L
  rw [FrontEndsAgree, httpQueued_eq hn h0, telnetQueued_eq hn, looseLine_iff hclean,
    wrappedLine_iff hclean]
  by_cases hfew : (BitVec.ofNat 32 ((cleanLine L).count ' ' + 2)).toInt < 5
  · rw [if_pos hfew, and_iff_right hfew]
    rcases Nat.lt_or_ge ((cleanLine L).count ' ') 3 with hcount | hcount
    · simp [hcount]
    · simp [hcount, Nat.not_lt.mpr hcount]
  · rw [if_neg hfew]
    have hcount : 3 ≤ (cleanLine L).count ' ' := by
      have hle := Telnet.toInt_counter_le ((cleanLine L).count ' ' + 2)
      omega
    refine iff_of_true ⟨Iff.rfl, fun m hm m' hm' => ?_⟩ ⟨fun h => ?_, fun h => hfew h.1⟩
    · rw [Option.mem_toList] at hm hm'
      obtain rfl := Option.mem_unique hm hm'
      exact ⟨rfl, rfl, rfl, rfl⟩
    · exact absurd h.1 (Nat.not_lt.mpr hcount)

/-- The two front ends agree on a line in the put format. -/
theorem frontEnds_agree_example : FrontEndsAgree "sys.cpu.nice 11583988 23.4 host=web01".toList :=
  (frontEnds_agree_iff _ (by decide) (by decide)).mpr (by decide)

/-- HTTP queues a line of two words, which telnet refuses. -/
theorem frontEnds_disagree :
    ¬ ∀ L : Str, '\n' ∉ L → '\x00' ∉ L → FrontEndsAgree L := fun h =>
  absurd (h "1 host=a".toList (by decide) (by decide)).1 (by
    rw [telnetQueued_eq (by decide), httpQueued_eq (by decide) (by decide)]
    decide)

end SimpleTSDB.Http

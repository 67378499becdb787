import SimpleTSDB.Http.Put

/-!
# The response to a put

`ApiPutHandler` writes a response for every line that it has queued and returns behind the first
line that is not valid (`apiPutHandler_eq`). `oneResponse_iff` says that the request has the one
response of its status code exactly when its body has one line, and the line is valid.
-/

namespace SimpleTSDB.Http

open Delimited

/-- The status code of a text that starts with a status line. -/
def statusCode (text : Str) : Option ℕ :=
  if "HTTP/1.1 ".toList.isPrefixOf text then
    some (digitsVal 10 ((text.drop "HTTP/1.1 ".length).takeWhile isdigit))
  else none

/-- The status codes of the status lines that are written. -/
def statusCodes (es : List Effect) : List ℕ :=
  es.filterMap fun
    | .send text => statusCode text
    | _ => none

/-- The cleaned lines of a stream that are not empty. -/
def streamLines (stream : Str) : List Str :=
  ((fields '\n' stream).map cleanLine).filter (· ≠ [])

/-- The cleaned lines of a body that are not empty. The body ends at its first NUL. -/
def putLines (body : Str) : List Str := streamLines (cstr body)

/-- The request has one response: one status line, with the code that the handler returns, which is
200 if all lines are valid and 400 if one is rejected. -/
def OneResponse (body : Str) : Prop :=
  ∃ es status, apiPutHandler "POST".toList body = some (es, status) ∧ statusCodes es = [status] ∧
    ((∀ line ∈ putLines body, Metric.accepted line ≠ none) → status = 200) ∧
    ((∃ line ∈ putLines body, Metric.accepted line = none) → status = 400)

/-! ## The responses of the loop -/

/-- The status codes that are written for the lines. -/
def writtenCodes : List Str → List ℕ
  | [] => []
  | line :: lines => if Metric.accepted line ≠ none then 200 :: writtenCodes lines else [500]

/-- The status code that is returned for the lines. -/
def returnedCode : List Str → ℕ
  | [] => 200
  | line :: lines => if Metric.accepted line ≠ none then returnedCode lines else 400

theorem getline_append {line : Str} (h : '\n' ∉ line) (rest : Str) :
    getline (line ++ '\n' :: rest) = some (line, rest) := by
  have hspan := span_append_delim h rest
  simp only [ne_eq, decide_not] at hspan
  simp only [getline, List.append_eq_nil_iff, reduceCtorEq, and_false, if_false, bne, beq_eq_decide,
    hspan, List.tail_cons]

theorem streamLines_append {line : Str} (h : '\n' ∉ line) (rest : Str) :
    streamLines (line ++ '\n' :: rest) =
      if cleanLine line = [] then streamLines rest else cleanLine line :: streamLines rest := by
  by_cases hc : cleanLine line = [] <;> simp [streamLines, fields_append_delim h, hc]

theorem streamLines_of_not_mem {line : Str} (h : '\n' ∉ line) (hne : line ≠ []) :
    streamLines line = if cleanLine line = [] then [] else [cleanLine line] := by
  by_cases hc : cleanLine line = [] <;> simp [streamLines, fields_of_not_mem h hne, hc]

/-- The error of a line that is rejected. -/
def rejection (line : Str) : Str :=
  match Metric.ofLine line with
  | some metric => "put: invalid value: ".toList ++ metric.error ++ "\r\n".toList
  | none => []

/-- What the loop does for its lines, of which `count` have been queued before. -/
def serveLines : List Str → ℕ → List Effect × ℕ
  | [], count => ([.addPutCount count], 200)
  | line :: lines, count =>
    match Metric.accepted line with
    | some metric =>
      (.queueMetric metric :: .send "HTTP/1.1 200 OK\r\nConnection: close\r\n\r\n".toList ::
        (serveLines lines (count + 1)).1, (serveLines lines (count + 1)).2)
    | none => mgWrite400 (rejection line)

/-- One round of the loop. -/
theorem putLoop_round {stream line rest : Str} (h : getline stream = some (line, rest))
    {lines : List Str} (ih : ∀ count, putLoop rest count = some (serveLines lines count))
    (count : ℕ) : putLoop stream count =
      some (serveLines (if cleanLine line = [] then lines else cleanLine line :: lines) count) := by
  rw [putLoop_of_getline h]
  by_cases hc : cleanLine line = []
  · simp only [hc, List.length_nil, if_true]
    exact ih count
  · obtain ⟨m, hm⟩ := Metric.ofLine_isSome (cleanLine line)
    have hlen : ¬ (cleanLine line).length = 0 := by simpa using hc
    have hacc : Metric.accepted (cleanLine line) = if m.isValid then some m else none := by
      rw [Metric.accepted, hm, Option.filter_some]
    rw [if_neg hlen, if_neg hc, serveLines, hacc, rejection, hm]
    cases hvalid : m.isValid with
    | true => simp only [hvalid, if_true, ih, Option.map_some]
    | false => simp only [hvalid, Bool.false_eq_true, if_false]

/-- **The loop** goes through the lines of its stream. -/
theorem putLoop_eq (stream : Str) (count : ℕ) :
    putLoop stream count = some (serveLines (streamLines stream) count) := by
  induction stream using fields_induction '\n' generalizing count with
  | nil => exact putLoop_nil count
  | last line h hne =>
    rw [streamLines_of_not_mem h hne]
    -- nothing is read after it
    exact @putLoop_round line line [] (getline_of_not_mem h hne) [] putLoop_nil count
  | delim line rest h ih =>
    rw [streamLines_append h]
    exact putLoop_round (getline_append h rest) ih count

/-- **A put request** goes through the lines of its body, if it has a body. -/
theorem apiPutHandler_eq (body : Str) : apiPutHandler "POST".toList body =
    some (if body = [] then ([], 200) else serveLines (putLines body) 0) := by
  rw [apiPutHandler, if_neg (not_not_intro rfl)]
  by_cases hbody : body = []
  · rw [if_pos hbody, hbody]
    rfl
  · rw [if_neg hbody, if_pos (List.length_pos_iff.mpr hbody)]
    exact putLoop_eq (cstr body) 0

/-- The status codes that are written and returned for the lines. -/
theorem serveLines_codes (lines : List Str) (count : ℕ) :
    statusCodes (serveLines lines count).1 = writtenCodes lines ∧
      (serveLines lines count).2 = returnedCode lines := by
  induction lines generalizing count with
  | nil => exact ⟨rfl, rfl⟩
  | cons line lines ih =>
    obtain ⟨hwritten, hreturned⟩ := ih (count + 1)
    rw [serveLines, writtenCodes, returnedCode]
    cases Metric.accepted line with
    | none => exact ⟨rfl, rfl⟩
    | some m =>
      refine ⟨?_, hreturned⟩
      rw [if_pos (Option.some_ne_none m), ← hwritten]
      rfl

/-- The handler writes and returns the status codes of the lines of the body. -/
theorem apiPutHandler_codes (body : Str) :
    ∃ es, apiPutHandler "POST".toList body = some (es, returnedCode (putLines body)) ∧
      statusCodes es = writtenCodes (putLines body) := by
  rw [apiPutHandler_eq]
  by_cases hbody : body = []
  · subst hbody
    exact ⟨_, rfl, rfl⟩
  · obtain ⟨hwritten, hreturned⟩ := serveLines_codes (putLines body) 0
    rw [if_neg hbody, ← hreturned]
    exact ⟨_, rfl, hwritten⟩

/-! ## One response -/

/-- **A put has its one response exactly when its body has one line, and the line is valid.** -/
theorem oneResponse_iff (body : Str) :
    OneResponse body ↔ ∃ line m, putLines body = [line] ∧ Metric.accepted line = some m := by
  obtain ⟨es, hput, hcodes⟩ := apiPutHandler_codes body
  simp only [OneResponse, hput, Option.some.injEq, Prod.mk.injEq, and_assoc, existsAndEq, hcodes]
  rcases putLines body with _ | ⟨line, lines⟩
  · simp [writtenCodes]
  · cases hacc : Metric.accepted line with
    | none =>
      -- the status line of an internal server error, and the code of a bad request
      simp [writtenCodes, returnedCode, hacc]
    | some m =>
      cases lines with
      | nil => simp [writtenCodes, returnedCode, hacc]
      | cons line' lines =>
        have hmore : writtenCodes (line' :: lines) ≠ [] := by
          rw [writtenCodes]
          split <;> simp
        simp only [writtenCodes.eq_2 line, hacc, ne_eq, reduceCtorEq, not_false_eq_true, if_true,
          List.cons.injEq, hmore, and_false, false_and, List.cons_ne_nil, exists_false]

/-- **A body of blank lines has no response.** -/
theorem not_oneResponse : ¬ ∀ body : Str, OneResponse body := by
  intro h
  obtain ⟨es, status, hput, hone, -⟩ := h "\n".toList
  obtain ⟨es', hput', hcodes⟩ := apiPutHandler_codes "\n".toList
  rw [hput] at hput'
  obtain ⟨rfl, -⟩ := Prod.mk.inj (Option.some.inj hput')
  have hnone : putLines "\n".toList = [] := by decide
  rw [hone, hnone] at hcodes
  cases hcodes

end SimpleTSDB.Http

import SimpleTSDB.Telnet.Line

/-!
# The put command

A telnet line is taken for a put when it begins with the three letters, whatever follows them; its
blanks are counted in an `int32_t`, not its words, and the metric is read from the fifth character
on (`mem_queued_iff`). A line therefore queues a metric that it should not if its first word is
longer than the command, or if there are more blanks than words (`LoosePut`). `onlyPut_iff` says
that there are no other such lines.
-/

namespace SimpleTSDB.Telnet

/-- The line without its first character, if that is not a letter. -/
def dropNonLetter : Str → Str
  | [] => []
  | c :: line => if isalpha c then c :: line else line

/-- The words of a line, separated by blanks, that are not empty. -/
def words (line : Str) : List Str := (line.splitOn ' ').filter (· ≠ [])

/-- A line queues only what a put says: its first word is the command, at least four words follow,
and the metric is the parser's for the text behind the command. -/
def OnlyPut (line : Str) : Prop :=
  ∀ es, dispatchLine line = some es → ∀ m ∈ queued es, ∃ text,
    dropNonLetter line = "put".toList ++ ' ' :: text ∧ 4 ≤ (words text).length ∧
      Metric.accepted text = some m

/-- A line whose blanks are counted as enough and that the parser lets pass, with fewer than four
words behind the command, or with a first word that is longer than the command. -/
def LoosePut (line : Str) : Prop :=
  5 ≤ (BitVec.ofNat 32 (line.count ' ' + 1)).toInt ∧
  match line.splitOn ' ' with
  | w :: a :: b :: c :: d :: ds =>
    w = "put".toList ∧ ((a :: b :: c :: d :: ds).filter (· ≠ [])).length < 4 ∧
        a ≠ [] ∧ d :: ds ≠ [[]] ∧ (strtoull b).2 = [] ∧ (strtod c).2 = [] ∨
      "put".toList <+: w ∧ 4 < w.length ∧ (strtoull a).2 = [] ∧ (strtod b).2 = []
  | _ => False

instance (line : Str) : Decidable (LoosePut line) := by
  unfold LoosePut
  refine @instDecidableAnd _ _ (Int.decLe _ _) ?_
  rcases line.splitOn ' ' with _ | ⟨w, _ | ⟨a, _ | ⟨b, _ | ⟨c, _ | ⟨d, ds⟩⟩⟩⟩⟩ <;> infer_instance

/-! ## The dispatch -/

theorem isalpha_of_ispunct {c : Char} (h : isalpha c = true) : ispunct c = false := by
  simp [ispunct, isalnum, h]

/-- The first character is removed exactly if it is not a letter. -/
theorem stripsFirst_cons (c : Char) (line : Str) : stripsFirst (c :: line) = !isalpha c := by
  rw [stripsFirst, List.headD_cons]
  by_cases h : isalpha c = true
  · have hquote : c ≠ '\'' := by
      rintro rfl
      exact absurd h (by decide)
    simp [h, isalpha_of_ispunct h, hquote]
  · simp [h]

/-- A line that is not empty is dispatched without its first character, if that is not a letter. -/
theorem dispatchLine_eq {line : Str} (h : line ≠ []) : dispatchLine line =
    if findStr (dropNonLetter line) "put".toList = some 0 then dispatchPut (dropNonLetter line)
    else some [] := by
  obtain ⟨c, line, rfl⟩ := List.exists_cons_of_ne_nil h
  rw [dispatchLine, stripsFirst_cons]
  cases hc : isalpha c with
  | true => simp [dropNonLetter, hc]
  | false => simp [dropNonLetter, hc, substrFrom]

/-- **What a line queues**: the parser's metric for the text from the fifth character on, if the
line begins with the letters of the command and its blanks are counted as enough. -/
theorem mem_queued_iff {line : Str} {es : List Effect} (h : dispatchLine line = some es)
    (m : Metric) :
    m ∈ queued es ↔ "put".toList <+: dropNonLetter line ∧
      5 ≤ (paramCount (dropNonLetter line)).toInt ∧
      Metric.accepted ((dropNonLetter line).drop 4) = some m := by
  have hne : line ≠ [] := by
    rintro rfl
    cases h
  rw [dispatchLine_eq hne] at h
  generalize dropNonLetter line = l at h ⊢
  by_cases hput : "put".toList <+: l
  · rw [if_pos (findStr_eq_zero_iff.mpr hput), dispatchPut] at h
    by_cases hcount : 5 ≤ (paramCount l).toInt
    · have hlen : 4 ≤ l.length := (four_le_count hcount).trans List.count_le_length
      obtain ⟨m', hm'⟩ := Metric.ofLine_isSome (l.drop 4)
      simp only [if_neg (Int.not_lt.mpr hcount), substrFrom, if_pos hlen,
        Option.bind_eq_bind, Option.bind_some, hm'] at h
      rw [Metric.accepted_eq_some_iff, hm', Option.some.injEq]
      split at h
      next hvalid =>
        obtain rfl := Option.some.inj h
        have hqueued : queued [.queueMetric m', .addPutCount 1] = [m'] := rfl
        rw [hqueued, List.mem_singleton]
        refine ⟨?_, fun h => h.2.2.1.symm⟩
        rintro rfl
        exact ⟨hput, hcount, rfl, hvalid⟩
      next hvalid =>
        obtain rfl := Option.some.inj h
        refine ⟨fun h => absurd h List.not_mem_nil, ?_⟩
        rintro ⟨-, -, rfl, hvalid'⟩
        exact absurd hvalid' hvalid
    · rw [if_pos (Int.not_le.mp hcount)] at h
      obtain rfl := Option.some.inj h
      exact ⟨fun h => absurd h List.not_mem_nil, fun h => absurd h.2.1 hcount⟩
  · rw [if_neg fun hzero => hput (findStr_eq_zero_iff.mp hzero)] at h
    obtain rfl := Option.some.inj h
    exact ⟨fun h => absurd h List.not_mem_nil, fun h => absurd h.1 hput⟩

/-! ## The lines that should not be queued -/

/-- The metric of a line, if the line is dispatched without its first character. -/
theorem onlyPut_iff_forall {line : Str} : OnlyPut line ↔
    ∀ m, "put".toList <+: dropNonLetter line → 5 ≤ (paramCount (dropNonLetter line)).toInt →
      Metric.accepted ((dropNonLetter line).drop 4) = some m → ∃ text,
        dropNonLetter line = "put".toList ++ ' ' :: text ∧ 4 ≤ (words text).length ∧
          Metric.accepted text = some m := by
  constructor
  · intro h m hput hcount hacc
    have hne : line ≠ [] := by
      rintro rfl
      exact absurd (four_le_count hcount) (by decide)
    obtain ⟨es, hes⟩ := Option.ne_none_iff_exists'.mp (mt dispatchLine_eq_none_iff.mp hne)
    exact h es hes m ((mem_queued_iff hes m).mpr ⟨hput, hcount, hacc⟩)
  · intro h es hes m hm
    obtain ⟨hput, hcount, hacc⟩ := (mem_queued_iff hes m).mp hm
    exact h m hput hcount hacc

/-- The five words of a line with four blanks or more. -/
theorem exists_words_of_count {line : Str} (h : 4 ≤ line.count ' ') : ∃ w a b c d : Str,
    line = w ++ ' ' :: (a ++ ' ' :: (b ++ ' ' :: (c ++ ' ' :: d))) ∧
      ' ' ∉ w ∧ ' ' ∉ a ∧ ' ' ∉ b ∧ ' ' ∉ c := by
  have hmem : ' ' ∈ line := List.count_pos_iff.mp (by omega)
  obtain ⟨w, rest, rfl, hw⟩ := List.eq_append_cons_of_mem hmem
  rw [List.count_append, List.count_cons_self, List.count_eq_zero.mpr hw] at h
  cases Metric.shape rest with
  | blankless hx =>
    rw [List.count_eq_zero.mpr hx] at h
    omega
  | one hx hy =>
    simp only [List.count_append, List.count_cons_self, List.count_eq_zero.mpr hx,
      List.count_eq_zero.mpr hy] at h
    omega
  | two hx hy hz =>
    simp only [List.count_append, List.count_cons_self, List.count_eq_zero.mpr hx,
      List.count_eq_zero.mpr hy, List.count_eq_zero.mpr hz] at h
    omega
  | many ha hb hc d => exact ⟨w, _, _, _, d, rfl, hw, ha, hb, hc⟩

/-- A loose line, read off its words. -/
theorem loosePut_iff {w a b c d : Str} (hw : ' ' ∉ w) (ha : ' ' ∉ a) (hb : ' ' ∉ b) (hc : ' ' ∉ c)
    (hcount : 5 ≤ (paramCount (w ++ ' ' :: (a ++ ' ' :: (b ++ ' ' :: (c ++ ' ' :: d))))).toInt) :
    LoosePut (w ++ ' ' :: (a ++ ' ' :: (b ++ ' ' :: (c ++ ' ' :: d)))) ↔
      w = "put".toList ∧ (words (a ++ ' ' :: (b ++ ' ' :: (c ++ ' ' :: d)))).length < 4 ∧
        a ≠ [] ∧ d ≠ [] ∧ (strtoull b).2 = [] ∧ (strtod c).2 = [] ∨
      "put".toList <+: w ∧ 4 < w.length ∧ (strtoull a).2 = [] ∧ (strtod b).2 = [] := by
  obtain ⟨d₀, ds, hd⟩ := List.exists_cons_of_ne_nil (List.splitOn_ne_nil ' ' d)
  have hnil : d ≠ [] ↔ d₀ :: ds ≠ [[]] := by rw [← hd, ne_eq, ne_eq, splitOn_eq_nil_singleton_iff]
  rw [paramCount_eq] at hcount
  rw [LoosePut, and_iff_right hcount, words, List.splitOn_append_cons_self_of_not_mem hw,
    splitOn_many ha hb hc, hd, hnil]

theorem dropNonLetter_suffix (line : Str) : dropNonLetter line <:+ line := by
  cases line with
  | nil => exact List.suffix_refl _
  | cons c line =>
    rw [dropNonLetter]
    split
    · exact List.suffix_refl _
    · exact List.suffix_cons c line

/-- What is accepted behind the command `put` has four words, unless the checks pass for less. -/
theorem words_of_accepted_iff {a b c d : Str} (ha : ' ' ∉ a) (hb : ' ' ∉ b) (hc : ' ' ∉ c)
    (hclean : CleanLine (a ++ ' ' :: (b ++ ' ' :: (c ++ ' ' :: d)))) :
    (∀ m, Metric.accepted (a ++ ' ' :: (b ++ ' ' :: (c ++ ' ' :: d))) = some m →
      4 ≤ (words (a ++ ' ' :: (b ++ ' ' :: (c ++ ' ' :: d)))).length) ↔
      ¬ ((words (a ++ ' ' :: (b ++ ' ' :: (c ++ ' ' :: d)))).length < 4 ∧
        a ≠ [] ∧ d ≠ [] ∧ (strtoull b).2 = [] ∧ (strtod c).2 = []) := by
  rw [Metric.accepted_many ha hb hc, hclean.of_append_cons.2.of_append_cons.1.cstr_eq,
    hclean.of_append_cons.2.of_append_cons.2.of_append_cons.1.cstr_eq]
  constructor
  · rintro h ⟨hlt, hchecks⟩
    have hfour := h _ (if_pos hchecks)
    omega
  · intro h m hacc
    obtain ⟨hchecks, -⟩ := Option.ite_none_right_eq_some.mp hacc
    exact Nat.not_lt.mp fun hlt => h ⟨hlt, hchecks⟩

/-- The text behind a longer first word, whose end becomes the name, is not accepted. -/
theorem not_accepted_iff {x a b c d : Str} (hx : ' ' ∉ x) (ha : ' ' ∉ a) (hb : ' ' ∉ b)
    (hclean : CleanLine (a ++ ' ' :: (b ++ ' ' :: (c ++ ' ' :: d)))) :
    (∀ m, Metric.accepted (x ++ ' ' :: (a ++ ' ' :: (b ++ ' ' :: (c ++ ' ' :: d)))) ≠ some m) ↔
      ¬ (x ≠ [] ∧ (strtoull a).2 = [] ∧ (strtod b).2 = []) := by
  rw [Metric.accepted_many hx ha hb, hclean.of_append_cons.1.cstr_eq,
    hclean.of_append_cons.2.of_append_cons.1.cstr_eq]
  constructor
  · rintro h ⟨hname, htime, hvalue⟩
    exact h _ (if_pos ⟨hname, by simp, htime, hvalue⟩)
  · intro h m hacc
    obtain ⟨⟨hname, -, htime, hvalue⟩, -⟩ := Option.ite_none_right_eq_some.mp hacc
    exact h ⟨hname, htime, hvalue⟩

/-- The command behind which there are four blanks, in all cases of its first word. -/
theorem onlyPut_words_iff {w a b c d : Str} (hw : ' ' ∉ w) (ha : ' ' ∉ a) (hb : ' ' ∉ b)
    (hc : ' ' ∉ c) (hclean : CleanLine (w ++ ' ' :: (a ++ ' ' :: (b ++ ' ' :: (c ++ ' ' :: d)))))
    (hcount : 5 ≤ (paramCount (w ++ ' ' :: (a ++ ' ' :: (b ++ ' ' :: (c ++ ' ' :: d))))).toInt) :
    (∀ m, "put".toList <+: w →
      Metric.accepted ((w ++ ' ' :: (a ++ ' ' :: (b ++ ' ' :: (c ++ ' ' :: d)))).drop 4) = some m →
      w = "put".toList ∧ 4 ≤ (words (a ++ ' ' :: (b ++ ' ' :: (c ++ ' ' :: d)))).length) ↔
      ¬ LoosePut (w ++ ' ' :: (a ++ ' ' :: (b ++ ' ' :: (c ++ ' ' :: d)))) := by
  have hrest := hclean.of_append_cons.2
  rw [loosePut_iff hw ha hb hc hcount]
  by_cases hput : "put".toList <+: w
  · obtain ⟨x, rfl⟩ := hput
    cases x with
    | nil =>
      have hshort : ¬ 4 < "put".toList.length := by decide
      have hdrop : ("put".toList ++ [] ++
          ' ' :: (a ++ ' ' :: (b ++ ' ' :: (c ++ ' ' :: d)))).drop 4 =
            a ++ ' ' :: (b ++ ' ' :: (c ++ ' ' :: d)) := rfl
      rw [hdrop, List.append_nil]
      simpa [hshort] using words_of_accepted_iff ha hb hc hrest
    | cons x xs =>
      have hxs : ' ' ∉ xs := fun h => hw (by simp [h])
      have hdrop : ("put".toList ++ x :: xs ++
          ' ' :: (a ++ ' ' :: (b ++ ' ' :: (c ++ ' ' :: d)))).drop 4 =
            xs ++ ' ' :: (a ++ ' ' :: (b ++ ' ' :: (c ++ ' ' :: d))) := rfl
      have hlong : 4 < ("put".toList ++ x :: xs).length ↔ xs ≠ [] := by
        rw [← List.length_pos_iff, List.length_append, List.length_cons]
        change 4 < 3 + (xs.length + 1) ↔ 0 < xs.length
        omega
      have hne : "put".toList ++ x :: xs ≠ "put".toList := by simp
      rw [hdrop, hlong]
      simpa [hne] using not_accepted_iff hxs ha hb hrest
  · refine iff_of_true (fun _ h => absurd h hput) ?_
    rintro (⟨rfl, -⟩ | ⟨h, -⟩)
    · exact hput (List.prefix_refl _)
    · exact hput h

/-- **A line queues only what a put says if and only if** it is not loose. -/
theorem onlyPut_iff (raw : Str) :
    OnlyPut (cleanLine raw) ↔ ¬ LoosePut (dropNonLetter (cleanLine raw)) := by
  have hclean : CleanLine (dropNonLetter (cleanLine raw)) :=
    (cleanLine_clean raw).mono (dropNonLetter_suffix _).subset
  rw [onlyPut_iff_forall]
  generalize dropNonLetter (cleanLine raw) = line at hclean ⊢
  by_cases hcount : 5 ≤ (paramCount line).toInt
  · obtain ⟨w, a, b, c, d, rfl, hw, ha, hb, hc⟩ := exists_words_of_count (four_le_count hcount)
    rw [← onlyPut_words_iff hw ha hb hc hclean hcount]
    have hblank : ' ' ∉ "put".toList := by decide
    have hfront : "put".toList <+: w ++ ' ' :: (a ++ ' ' :: (b ++ ' ' :: (c ++ ' ' :: d))) ↔
        "put".toList <+: w := by
      constructor
      · rintro ⟨t, ht⟩
        obtain ⟨x, rfl, -⟩ := Delimited.exists_of_append_eq hblank ht
        exact List.prefix_append _ _
      · exact fun h => h.trans (List.prefix_append _ _)
    rw [hfront]
    constructor
    · intro h m hput hacc
      obtain ⟨text, heq, hwords, -⟩ := h m hput hcount hacc
      obtain ⟨rfl, rfl⟩ := Delimited.append_delim_inj hw hblank heq
      exact ⟨rfl, hwords⟩
    · intro h m hput _ hacc
      obtain ⟨rfl, hwords⟩ := h m hput hacc
      exact ⟨_, rfl, hwords, hacc⟩
  · refine iff_of_true (fun _ _ h => absurd h hcount) fun h => hcount ?_
    rw [paramCount_eq]
    exact h.1

/-- A word that begins with the letters of the command queues a metric. -/
theorem not_onlyPut : ¬ ∀ raw : Str, OnlyPut (cleanLine raw) := by
  intro h
  have haccepted : (Metric.accepted "y 1 2 k=v w=z".toList).isSome := by decide
  obtain ⟨m, hm⟩ := Option.isSome_iff_exists.mp haccepted
  have hcount : 5 ≤ (paramCount (dropNonLetter (cleanLine "putxy 1 2 k=v w=z".toList))).toInt := by
    rw [paramCount_eq]
    decide
  obtain ⟨text, htext, -⟩ := onlyPut_iff_forall.mp (h "putxy 1 2 k=v w=z".toList) m (by decide)
    hcount hm
  have hword : dropNonLetter (cleanLine "putxy 1 2 k=v w=z".toList) =
      "put".toList ++ 'x' :: "y 1 2 k=v w=z".toList := by decide
  rw [hword, List.append_cancel_left_eq] at htext
  exact absurd (List.cons.inj htext).1 (by decide)

end SimpleTSDB.Telnet

import SimpleTSDB.Config.Ini
import SimpleTSDB.Foundations.Delimited

/-!
# Documents of the configuration

A document is a list of items: blank lines, comments, headings, pairs, which may have a comment
behind them, and lines that continue the value before them. A name has the values that its section
gives it, one for each line (`valuesOf`). The parser reads them back from the text of the
document, if its lines fit into the buffer (`get_iniReader_text`).
-/

namespace SimpleTSDB.Config

/-! ## Documents -/

/-- A line of a document, with its blanks. -/
inductive Item
  | blank (blanks : Str)
  | comment (indent : Str) (mark : Char) (text : Str)
  | heading (sect trail : Str)
  | pair (name before : Str) (mark : Char) (after value trail : Str) (remark : Option Str)
  | more (indent value trail : Str)

/-- A value of a name. -/
structure Entry where
  sect : Str
  name : Str
  value : Str
deriving DecidableEq

/-- The section and the name that a line belongs to; the name is empty behind a heading. -/
structure Place where
  sect : Str
  name : Str

namespace Item

/-- The text of a line, without its newline. -/
def text : Item → Str
  | blank blanks => blanks
  | comment indent mark text => indent ++ mark :: text
  | heading sect trail => '[' :: (sect ++ ']' :: trail)
  | pair name before mark after value trail remark =>
    name ++ (before ++ mark :: (after ++ (value ++ (trail ++ (remark.map (';' :: ·)).getD []))))
  | more indent value trail => indent ++ (value ++ trail)

/-- Where the next line is. -/
def next (p : Place) : Item → Place
  | heading sect _ => ⟨sect, []⟩
  | pair name .. => ⟨p.sect, name⟩
  | _ => p

/-- The value of a line. -/
def entry (p : Place) : Item → Option Entry
  | pair name _ _ _ value .. => some ⟨p.sect, name, value⟩
  | more _ value _ => some ⟨p.sect, p.name, value⟩
  | _ => none

end Item

/-- The values of a document from a place on. -/
def entriesFrom : Place → List Item → List Entry
  | _, [] => []
  | p, i :: is => (i.entry p).toList ++ entriesFrom (i.next p) is

/-- A document. -/
abbrev Document := List Item

namespace Document

/-- The text of a document. -/
def text (d : Document) : Str := d.flatMap fun i => i.text ++ ['\n']

def entries (d : Document) : List Entry := entriesFrom ⟨[], []⟩ d

end Document

/-- The values of a name in a section, without regard to case. -/
def valuesOf (sect name : Str) (es : List Entry) : List Str :=
  (es.filter fun e =>
    e.sect.map tolower = sect.map tolower && e.name.map tolower = name.map tolower).map Entry.value

/-- The value of several lines: the first ones do not count as long as they are empty. -/
def joined (vs : List Str) : Str := ['\n'].intercalate (vs.dropWhile (· = []))

/-! ## Well-formed documents -/

/-- A character of a name. -/
def isNameChar (c : Char) : Bool := isalnum c || c = '_' || c = '-' || c = '.'

/-- No whitespace at the ends. -/
def isStripped (s : Str) : Bool :=
  s.head?.all (!isspace ·) && s.getLast?.all (!isspace ·)

/-- A comment starts in the text, behind whitespace. -/
def hasComment : Bool → Str → Bool
  | _, [] => false
  | wasSpace, c :: s => (wasSpace && c = ';') || hasComment (isspace c) s

/-- The line is what it is meant to be: its blanks are blanks, a name has a few characters of which
none is special, a value has no whitespace at its ends and no comment in it, a comment behind it is
set off by whitespace, and a line that goes on has something to go on with. -/
def Item.isPlain (p : Place) : Item → Bool
  | blank blanks => blanks.all isspace
  | comment indent mark _ => indent.all isspace && (mark = ';' || mark = '#')
  | heading sect _ => sect.all isNameChar && sect.length < maxName
  | pair name before mark after value trail remark =>
    name ≠ [] && name.all isNameChar && name.length < maxName && before.all isspace &&
      (mark = '=' || mark = ':') && after.all isspace && isStripped value &&
        !hasComment true value && trail.all isspace && (remark = none || trail ≠ [])
  | more indent value trail =>
    p.name ≠ [] && indent ≠ [] && indent.all isspace && value ≠ [] && isStripped value &&
      value.head? ≠ some ';' && value.head? ≠ some '#' && trail.all isspace

/-- The line fits into the buffer, and it is one line. -/
def Item.fits (i : Item) : Bool :=
  i.text.length + 1 < maxLine && !i.text.contains '\n' && !i.text.contains '\x00'

/-- All lines from a place on are well-formed. -/
def wellFormedFrom : Place → List Item → Bool
  | _, [] => true
  | p, i :: is => i.isPlain p && i.fits && wellFormedFrom (i.next p) is

/-- **A document whose text says what it says.** -/
def Document.isWellFormed (d : Document) : Bool := wellFormedFrom ⟨[], []⟩ d

/-! ## One line -/

theorem hasComment_mono {s : Str} {wasSpace : Bool} (h : hasComment true s = false) :
    hasComment wasSpace s = false := by
  cases s with
  | nil => rfl
  | cons c s =>
    simp only [hasComment, Bool.true_and, Bool.or_eq_false_iff] at h ⊢
    exact ⟨by rw [h.1, Bool.and_false], h.2⟩

/-- Whitespace in front does not start a comment. -/
theorem hasComment_append {blanks : Str} (hblanks : blanks.all isspace = true) {s : Str}
    (h : hasComment true s = false) (wasSpace : Bool) :
    hasComment wasSpace (blanks ++ s) = false := by
  induction blanks generalizing wasSpace with
  | nil => exact hasComment_mono h
  | cons c blanks ih =>
    rw [List.all_cons, Bool.and_eq_true] at hblanks
    have hc : c ≠ ';' := by
      rintro rfl
      cases hblanks.1
    rw [List.cons_append, hasComment, ih hblanks.2]
    simp [hc]

/-- A text without a comment is read to its end. -/
theorem findCharsOrComment_nil {s : Str} {wasSpace : Bool} (h : hasComment wasSpace s = false) :
    findCharsOrComment [] wasSpace s = (s, []) := by
  induction s generalizing wasSpace with
  | nil => rfl
  | cons c s ih =>
    rw [hasComment, Bool.or_eq_false_iff] at h
    rw [findCharsOrComment, h.1, ih h.2]
    rfl

/-- A comment behind whitespace. -/
theorem findCharsOrComment_semicolon {blanks : Str} (hblanks : blanks.all isspace = true)
    {wasSpace : Bool} (h : wasSpace = true ∨ blanks ≠ []) (text : Str) :
    findCharsOrComment [] wasSpace (blanks ++ ';' :: text) = (blanks, ';' :: text) := by
  induction blanks generalizing wasSpace with
  | nil =>
    obtain rfl := h.resolve_right (not_not_intro rfl)
    rfl
  | cons c blanks ih =>
    rw [List.all_cons, Bool.and_eq_true] at hblanks
    have hc : c ≠ ';' := by
      rintro rfl
      cases hblanks.1
    rw [List.cons_append, findCharsOrComment, if_neg (by simp [hc]), ih hblanks.2 (.inl hblanks.1)]

/-- A text is read to the comment behind it. -/
theorem findCharsOrComment_comment {s : Str} {wasSpace : Bool} (h : hasComment wasSpace s = false)
    {trail : Str} (htrail : trail.all isspace = true) (hne : trail ≠ []) (text : Str) :
    findCharsOrComment [] wasSpace (s ++ (trail ++ ';' :: text)) = (s ++ trail, ';' :: text) := by
  induction s generalizing wasSpace with
  | nil => exact findCharsOrComment_semicolon htrail (.inr hne) text
  | cons c s ih =>
    rw [hasComment, Bool.or_eq_false_iff] at h
    rw [List.cons_append, findCharsOrComment, h.1, ih h.2]
    rfl

theorem isStripped_iff {s : Str} : isStripped s = true ↔
    (∀ c ∈ s.head?, isspace c = false) ∧ ∀ c ∈ s.getLast?, isspace c = false := by
  simp [isStripped, Option.all_eq_true]

/-- A value without the whitespace around it. -/
theorem rstrip_lskip {after value trail : Str} (hafter : after.all isspace = true)
    (hvalue : isStripped value = true) (htrail : trail.all isspace = true) :
    rstrip (lskip (after ++ (value ++ trail))) = value := by
  obtain ⟨hfirst, hlast⟩ := isStripped_iff.mp hvalue
  rw [lskip_append hafter]
  cases value with
  | nil =>
    have hnil := lskip_append htrail []
    rw [List.append_nil] at hnil
    rw [List.nil_append, hnil]
    rfl
  | cons c value =>
    rw [lskip_eq_self (by simpa using hfirst), rstrip_append _ htrail, rstrip_eq_self hlast]

/-- A character of a class is none that is not in the class. -/
theorem ne_of_all {p : Char → Bool} {s : Str} (h : s.all p = true) {c d : Char} (hc : c ∈ s)
    (hd : p d = false) : c ≠ d := by
  rintro rfl
  exact absurd (List.all_eq_true.mp h c hc) (ne_true_of_eq_false hd)

theorem isspace_of_name {name : Str} (h : name.all isNameChar = true) {c : Char} (hc : c ∈ name) :
    isspace c = false := by
  have hc := List.all_eq_true.mp h c hc
  simp only [isNameChar, isalnum, isalpha, isdigit, Bool.or_eq_true, Bool.and_eq_true,
    decide_eq_true_eq, char_le_iff, ← Char.toNat_inj] at hc
  rw [← Bool.not_eq_true, isspace_iff]
  simp at hc
  omega

namespace Ini

variable {s : Ini} {lead core trail : Str}

theorem bom_isPrefixOf {line : Str} (h : line.head? ≠ some '\xef') :
    bom.isPrefixOf line = false := by
  cases line with
  | nil => rfl
  | cons c line =>
    have hc : ('\xef' == c) = false := by
      rw [beq_eq_false_iff_ne]
      rintro rfl
      exact h rfl
    rw [bom, List.isPrefixOf, hc, Bool.false_and]

theorem parseLine_of_head {line : Str} (h : line.head? ≠ some '\xef') : s.parseLine line =
    { s with lineno := s.lineno + 1 }.parseStart
      ((lskip (rstrip line)).length < (rstrip line).length) (lskip (rstrip line)) := by
  simp [parseLine, bom_isPrefixOf h]

theorem head_append_ne (hlead : lead.all isspace = true) (h : core.head? ≠ some '\xef') :
    (lead ++ core).head? ≠ some '\xef' := by
  cases lead with
  | nil => exact h
  | cons c lead =>
    rw [List.all_cons, Bool.and_eq_true] at hlead
    rintro ⟨⟩
    cases hlead.1

/-- A line of whitespace. -/
theorem parseLine_blank (h : trail.all isspace = true) :
    s.parseLine trail = { s with lineno := s.lineno + 1 } := by
  have hhead : (trail ++ []).head? ≠ some '\xef' := head_append_ne h (by simp)
  have hstrip : rstrip trail = [] := by simpa [rstrip] using rstrip_append [] h
  rw [List.append_nil] at hhead
  rw [parseLine_of_head hhead, hstrip]
  rfl

/-- A line with whitespace around it. -/
theorem parseLine_eq (hlead : lead.all isspace = true) (hcore : isStripped core = true)
    (hne : core ≠ []) (htrail : trail.all isspace = true)
    (hbom : (lead ++ core).head? ≠ some '\xef') :
    s.parseLine (lead ++ (core ++ trail)) =
      { s with lineno := s.lineno + 1 }.parseStart (lead ≠ []) core := by
  obtain ⟨hfirst, hlast⟩ := isStripped_iff.mp hcore
  have hhead : (lead ++ (core ++ trail)).head? ≠ some '\xef' := by
    rwa [← List.append_assoc,
      List.head?_append_of_ne_nil _ (List.append_ne_nil_of_right_ne_nil _ hne)]
  have hstrip : rstrip (lead ++ (core ++ trail)) = lead ++ core := by
    rw [← List.append_assoc, rstrip_append _ htrail, rstrip_eq_self]
    rwa [List.getLast?_append_of_ne_nil _ hne]
  rw [parseLine_of_head hhead, hstrip, lskip_append hlead, lskip_eq_self hfirst]
  congr 1
  rw [List.length_append, decide_eq_decide]
  simp [List.length_pos_iff]

/-- A line without whitespace in front of it. -/
theorem parseLine_start (hcore : isStripped core = true) (hne : core ≠ [])
    (htrail : trail.all isspace = true) (hbom : core.head? ≠ some '\xef') :
    s.parseLine (core ++ trail) = { s with lineno := s.lineno + 1 }.parseStart false core := by
  have h : ([] : Str).all isspace = true := rfl
  exact parseLine_eq h hcore hne htrail hbom

/-- A comment. -/
theorem parseStart_comment {mark : Char} (h : mark = ';' ∨ mark = '#') (indented : Bool)
    (text : Str) : s.parseStart indented (mark :: text) = s := by
  rcases h with rfl | rfl <;> rfl

/-- The heading of a section. -/
theorem parseStart_heading {sect : Str} (hsect : sect.all isNameChar = true)
    (hlen : sect.length < maxName) (text : Str) :
    s.parseStart false ('[' :: (sect ++ ']' :: text)) =
      { s with sect := sect, prevName := [] } := by
  have hfind : findCharsOrComment [']'] false (sect ++ ']' :: text) = (sect, ']' :: text) :=
    findCharsOrComment_append (by decide) (fun c hc => ⟨fun hmem => ne_of_all hsect hc (by decide)
      (List.mem_singleton.mp hmem), ne_of_all hsect hc (by decide)⟩) false text
  have htake : strncpy0 sect maxName = sect := List.take_of_length_le (Nat.le_sub_one_of_lt hlen)
  simp [parseStart, hfind, htake]

/-- A name and its value. -/
theorem parseStart_pair {name before value rest : Str} {mark : Char}
    (hne : name ≠ []) (hname : name.all isNameChar = true) (hlen : name.length < maxName)
    (hbefore : before.all isspace = true) (hmark : mark = '=' ∨ mark = ':')
    (hread : rstrip (lskip (findCharsOrComment [] false rest).1) = value) :
    s.parseStart false (name ++ (before ++ mark :: rest)) =
      { s.handle name value with prevName := name } := by
  have hrstrip : rstrip (name ++ before) = name := by
    rw [rstrip_append _ hbefore]
    refine rstrip_eq_self fun c hc => ?_
    exact isspace_of_name hname (List.mem_of_getLast? hc)
  have htake : strncpy0 name maxName = name := List.take_of_length_le (Nat.le_sub_one_of_lt hlen)
  have hfront : ∀ c ∈ name ++ before, c ∉ "=:".toList ∧ c ≠ ';' := by
    intro c hc
    rw [show "=:".toList = ['=', ':'] from rfl, List.mem_pair, not_or]
    rcases List.mem_append.mp hc with hc | hc
    · exact ⟨⟨ne_of_all hname hc rfl, ne_of_all hname hc rfl⟩, ne_of_all hname hc rfl⟩
    · exact ⟨⟨ne_of_all hbefore hc rfl, ne_of_all hbefore hc rfl⟩, ne_of_all hbefore hc rfl⟩
  have hfind : findCharsOrComment "=:".toList false (name ++ (before ++ mark :: rest)) =
      (name ++ before, mark :: rest) := by
    rw [← List.append_assoc]
    refine findCharsOrComment_append ?_ hfront false _
    rcases hmark with rfl | rfl <;> decide
  obtain ⟨c, text, rfl⟩ := List.exists_cons_of_ne_nil hne
  have hspecial : ¬(c = ';' ∨ c = '#') ∧ c ≠ '[' := by
    have hfirst {d : Char} (hd : isNameChar d = false) : c ≠ d :=
      ne_of_all hname List.mem_cons_self hd
    exact ⟨not_or.mpr ⟨hfirst rfl, hfirst rfl⟩, hfirst rfl⟩
  rw [List.cons_append] at hfind ⊢
  simp only [parseStart]
  rw [if_neg (by simpa using hspecial.1), if_neg (by simp), if_neg hspecial.2, hfind]
  simp only
  rw [if_pos (by simpa using hmark), hrstrip, hread, htake]

/-- A line that goes on with the value before it. -/
theorem parseStart_more {value : Str} (hprev : s.prevName ≠ []) (hne : value ≠ [])
    (hmark : value.head? ≠ some ';' ∧ value.head? ≠ some '#') :
    s.parseStart true value = s.handle s.prevName value := by
  obtain ⟨c, text, rfl⟩ := List.exists_cons_of_ne_nil hne
  have hc : ¬(c = ';' ∨ c = '#') := by simpa using hmark
  simp only [parseStart]
  rw [if_neg (by simpa using hc), if_pos (by simpa using hprev)]

end Ini

/-- A text behind a character that is no whitespace, and the whitespace behind it. -/
theorem exists_rstrip {c : Char} (hc : isspace c = false) (s : Str) : ∃ t blanks,
    s = t ++ blanks ∧ blanks.all isspace = true ∧
      ∀ d ∈ (c :: t).getLast?, isspace d = false := by
  refine ⟨rstrip s, s.rtakeWhile isspace, List.rdropWhile_append_rtakeWhile.symm,
    List.all_eq_true.mpr fun d hd => List.mem_rtakeWhile_imp hd, fun d hd => ?_⟩
  rcases eq_or_ne (rstrip s) [] with heq | hne
  · rw [heq] at hd
    obtain rfl := Option.some.inj hd
    exact hc
  · rw [List.getLast?_cons_of_ne_nil hne, List.getLast?_eq_getLast_of_ne_nil hne] at hd
    obtain rfl := Option.some.inj hd
    exact Bool.eq_false_iff.mpr (List.rdropWhile_last_not _ _ hne)

/-- The value of a line is added. -/
def IniReader.add (r : IniReader) (e : Entry) : IniReader := r.valueHandler e.sect e.name e.value

/-- The variables of the loop are at a place. -/
structure At (p : Place) (s : Ini) : Prop where
  sect : s.sect = p.sect
  name : s.prevName = p.name

theorem all_concat {blanks : Str} (h : blanks.all isspace = true) :
    (blanks ++ ['\n']).all isspace = true := by
  rw [List.all_append, h]
  rfl

/-- What is behind the mark of a line, without the whitespace at its end: the value is read from
it. -/
theorem exists_rest {after value trail : Str} {mark : Char} {remark : Option Str}
    (hmark : mark = '=' ∨ mark = ':') (hafter : after.all isspace = true)
    (hvalue : isStripped value = true) (hcomment : hasComment true value = false)
    (htrail : trail.all isspace = true) (hremark : remark = none ∨ trail ≠ []) :
    ∃ rest blanks, after ++ (value ++ (trail ++ ((remark.map (';' :: ·)).getD [] ++ ['\n']))) =
        rest ++ blanks ∧ blanks.all isspace = true ∧
      (∀ c ∈ (mark :: rest).getLast?, isspace c = false) ∧
      rstrip (lskip (findCharsOrComment [] false rest).1) = value := by
  have hbetween := hasComment_append hafter hcomment false
  cases remark with
  | none =>
    rcases eq_or_ne value [] with rfl | hne
    · -- behind an empty value, all blanks are at the end of the line
      refine ⟨[], after ++ (trail ++ ['\n']), rfl, ?_, fun c hc => ?_, rfl⟩
      · rw [List.all_append, hafter, all_concat htrail]
        rfl
      · obtain rfl := Option.some.inj hc
        rcases hmark with rfl | rfl <;> rfl
    · refine ⟨after ++ value, trail ++ ['\n'], by simp, all_concat htrail, fun c hc => ?_, ?_⟩
      · rw [← List.cons_append, List.getLast?_append_of_ne_nil _ hne] at hc
        exact (isStripped_iff.mp hvalue).2 c hc
      · have hread := @rstrip_lskip after value [] hafter hvalue rfl
        rw [List.append_nil] at hread
        rwa [findCharsOrComment_nil hbetween]
  | some text =>
    have hne : trail ≠ [] := hremark.resolve_left (Option.some_ne_none _)
    obtain ⟨t, blanks, ht, hblanks, hlast⟩ := @exists_rstrip ';' rfl (text ++ ['\n'])
    refine ⟨after ++ (value ++ (trail ++ ';' :: t)), blanks, by simp [ht], hblanks, fun c hc => ?_,
      ?_⟩
    · have hsplit : mark :: (after ++ (value ++ (trail ++ ';' :: t))) =
          (mark :: (after ++ (value ++ trail))) ++ ';' :: t := by
        simp
      rw [hsplit, List.getLast?_append_of_ne_nil _ (List.cons_ne_nil _ _)] at hc
      exact hlast c hc
    · rw [← List.append_assoc after, findCharsOrComment_comment hbetween htrail hne,
        List.append_assoc]
      exact rstrip_lskip hafter hvalue htrail

open Ini in
/-- **One line.** -/
theorem parseLine_item {s : Ini} {p : Place} {i : Item} (hat : At p s) (h : i.isPlain p = true) :
    s.parseLine (i.text ++ ['\n']) =
      { sect := (i.next p).sect
        prevName := (i.next p).name
        lineno := s.lineno + 1
        error := s.error
        values := (i.entry p).toList.foldl IniReader.add s.values } := by
  obtain ⟨sect, prevName, lineno, error, values⟩ := s
  obtain ⟨rfl, rfl⟩ := hat
  cases i with
  | blank blanks =>
    exact parseLine_blank (all_concat h)
  | comment indent mark text =>
    simp only [Item.isPlain, Bool.and_eq_true, Bool.or_eq_true, decide_eq_true_eq] at h
    obtain ⟨hindent, hmark⟩ := h
    have hspace : isspace mark = false := by rcases hmark with rfl | rfl <;> rfl
    obtain ⟨t, blanks, ht, hblanks, hlast⟩ := exists_rstrip hspace (text ++ ['\n'])
    have hcore : isStripped (mark :: t) = true := isStripped_iff.mpr ⟨by simpa using hspace, hlast⟩
    have hline : Item.text (.comment indent mark text) ++ ['\n'] =
        indent ++ (mark :: t ++ blanks) := by
      simp [Item.text, ht]
    have hbom : (mark :: t).head? ≠ some '\xef' := by rcases hmark with rfl | rfl <;> simp
    rw [hline, parseLine_eq hindent hcore (by simp) hblanks (head_append_ne hindent hbom),
      parseStart_comment hmark]
    rfl
  | heading sect trail =>
    simp only [Item.isPlain, Bool.and_eq_true, decide_eq_true_eq] at h
    obtain ⟨t, blanks, ht, hblanks, hlast⟩ := @exists_rstrip ']' rfl (trail ++ ['\n'])
    have hcore : isStripped ('[' :: (sect ++ ']' :: t)) = true := by
      refine isStripped_iff.mpr ⟨fun c hc => ?_, fun c hc => hlast c ?_⟩
      · obtain rfl := Option.some.inj hc
        rfl
      · rwa [← List.cons_append, List.getLast?_append_of_ne_nil _ (by simp)] at hc
    have hline : Item.text (.heading sect trail) ++ ['\n'] =
        '[' :: (sect ++ ']' :: t) ++ blanks := by
      simp [Item.text, ht]
    rw [hline, parseLine_start hcore (by simp) hblanks (by simp), parseStart_heading h.1 h.2]
    rfl
  | pair name before mark after value trail remark =>
    simp only [Item.isPlain, Bool.and_eq_true, Bool.or_eq_true, decide_eq_true_eq,
      Bool.not_eq_true'] at h
    obtain ⟨⟨⟨⟨⟨⟨⟨⟨⟨hne, hname⟩, hlen⟩, hbefore⟩, hmark⟩, hafter⟩, hvalue⟩, hcomment⟩, htrail⟩,
      hremark⟩ := h
    obtain ⟨rest, blanks, hbody, hblanks, hend, hread⟩ :=
      exists_rest hmark hafter hvalue hcomment htrail hremark
    have hcore : isStripped (name ++ (before ++ mark :: rest)) = true := by
      refine isStripped_iff.mpr ⟨fun c hc => ?_, fun c hc => hend c ?_⟩
      · rw [List.head?_append_of_ne_nil _ hne] at hc
        exact isspace_of_name hname (List.mem_of_mem_head? hc)
      · rwa [← List.append_assoc, List.getLast?_append_of_ne_nil _ (by simp)] at hc
    have hbom : (name ++ (before ++ mark :: rest)).head? ≠ some '\xef' := by
      rw [List.head?_append_of_ne_nil _ hne]
      exact fun hc => ne_of_all hname (List.mem_of_mem_head? hc) rfl rfl
    have hline : Item.text (.pair name before mark after value trail remark) ++ ['\n'] =
        name ++ (before ++ mark :: rest) ++ blanks := by
      simp only [Item.text, List.append_assoc, List.cons_append] at hbody ⊢
      rw [hbody]
    rw [hline, parseLine_start hcore (by simp) hblanks hbom, parseStart_pair hne hname hlen hbefore
      hmark hread]
    rfl
  | more indent value trail =>
    simp only [Item.isPlain, Bool.and_eq_true, decide_eq_true_eq] at h
    obtain ⟨⟨⟨⟨⟨⟨⟨hprev, hindent⟩, hblanks⟩, hne⟩, hvalue⟩, hsemi⟩, hhash⟩, htrail⟩ := h
    obtain ⟨c, rest, rfl⟩ := List.exists_cons_of_ne_nil hindent
    have hbom : (c :: rest ++ value).head? ≠ some '\xef' := by
      rw [List.cons_append, List.head?_cons, ne_eq, Option.some.injEq]
      exact ne_of_all hblanks List.mem_cons_self rfl
    rw [Item.text, List.append_assoc, List.append_assoc, parseLine_eq hblanks hvalue hne
      (all_concat htrail) hbom, decide_eq_true hindent, parseStart_more hprev hne ⟨hsemi, hhash⟩]
    rfl

/-! ## All lines -/

/-- A line that fits is read with its newline. -/
theorem fgets_line {line : Str} (hline : '\n' ∉ line) {n : ℕ} (hlen : line.length < n)
    (rest : Str) : fgets n (line ++ '\n' :: rest) = (line ++ ['\n'], rest) := by
  induction line generalizing n with
  | nil =>
    obtain ⟨n, rfl⟩ := Nat.exists_eq_succ_of_ne_zero (Nat.ne_zero_of_lt hlen)
    rfl
  | cons c line ih =>
    obtain ⟨n, rfl⟩ := Nat.exists_eq_succ_of_ne_zero (Nat.ne_zero_of_lt hlen)
    rw [List.mem_cons, not_or] at hline
    rw [List.cons_append, fgets, if_neg (Ne.symm hline.1),
      ih hline.2 (Nat.lt_of_succ_lt_succ hlen)]
    rfl

/-- **The lines of a document.** -/
theorem parseStream_text {d : List Item} {p : Place} {s : Ini} (hat : At p s)
    (h : wellFormedFrom p d = true) :
    (parseStream s (Document.text d)).values = (entriesFrom p d).foldl IniReader.add s.values ∧
      (parseStream s (Document.text d)).error = s.error := by
  induction d generalizing p s with
  | nil =>
    rw [parseStream]
    exact ⟨rfl, rfl⟩
  | cons i d ih =>
    simp only [wellFormedFrom, Bool.and_eq_true] at h
    obtain ⟨⟨hplain, hfits⟩, hrest⟩ := h
    simp only [Item.fits, Bool.and_eq_true, decide_eq_true_eq, Bool.not_eq_true',
      List.contains_eq_mem, decide_eq_false_iff_not] at hfits
    obtain ⟨⟨hlen, hnewline⟩, hnul⟩ := hfits
    have htext : Document.text (i :: d) = i.text ++ '\n' :: Document.text d := by
      simp [Document.text]
    have hcstr : cstr (i.text ++ ['\n']) = i.text ++ ['\n'] := cstr_eq_self (by simp [hnul])
    rw [parseStream, dif_neg (by rw [htext]; simp), htext,
      fgets_line hnewline (Nat.lt_sub_of_add_lt hlen), hcstr, parseLine_item hat hplain,
      entriesFrom, List.foldl_append]
    exact ih ⟨rfl, rfl⟩ hrest

/-! ## The values of a name -/

theorem joined_concat (vs : List Str) (v : Str) :
    joined (vs ++ [v]) = if joined vs ≠ [] then joined vs ++ '\n' :: v else v := by
  unfold joined
  rw [List.dropWhile_append]
  cases hvs : vs.dropWhile (· = []) with
  | nil => by_cases hv : v = [] <;> simp [hv]
  | cons w ws =>
    have hw : w ≠ [] := by
      have hhead := List.head_dropWhile_not (· = ([] : Str)) (l := vs) (by simp [hvs])
      simpa [hvs] using hhead
    have hne : ['\n'].intercalate (w :: ws) ≠ [] := by
      rw [Delimited.intercalate_cons_eq]
      exact List.append_ne_nil_of_left_ne_nil hw _
    rw [if_neg (by simp), if_pos hne, List.cons_append, Delimited.intercalate_cons_eq,
      Delimited.intercalate_cons_eq, List.flatMap_append, List.append_assoc]
    simp

/-- A key belongs to one section and one name, but for their case. -/
theorem makeKey_eq_iff {sect sect' name name' : Str} (h : '=' ∉ sect) (h' : '=' ∉ sect') :
    IniReader.makeKey sect name = IniReader.makeKey sect' name' ↔
      sect.map tolower = sect'.map tolower ∧ name.map tolower = name'.map tolower := by
  have hlower {s : Str} (hs : '=' ∉ s) : '=' ∉ s.map tolower := by
    rw [List.mem_map]
    rintro ⟨c, hc, heq⟩
    exact hs ((tolower_eq_iff rfl).mp heq ▸ hc)
  unfold IniReader.makeKey
  rw [List.map_append, List.map_append, List.map_cons, List.map_cons]
  constructor
  · exact Delimited.append_delim_inj (hlower h) (hlower h')
  · rintro ⟨hsect, hname⟩
    rw [hsect, hname]

/-- **Adding values** puts those of a name together. -/
theorem foldl_add (es : List Entry) (hes : ∀ e ∈ es, '=' ∉ e.sect) {sect : Str} (h : '=' ∉ sect)
    (name : Str) :
    es.foldl IniReader.add (fun _ => none) (IniReader.makeKey sect name) =
      if valuesOf sect name es = [] then none else some (joined (valuesOf sect name es)) := by
  induction es using List.reverseRecOn with
  | nil => rfl
  | append_singleton es e ih =>
    have ih := ih fun e he => hes e (List.mem_append_left _ he)
    have hkey : IniReader.makeKey sect name = IniReader.makeKey e.sect e.name ↔ _ :=
      makeKey_eq_iff h (hes e (List.mem_append_right _ List.mem_cons_self))
    have hold : (if valuesOf sect name es = [] then none
        else some (joined (valuesOf sect name es))).getD [] = joined (valuesOf sect name es) := by
      split
      · next hnil => rw [hnil]; rfl
      · rfl
    rw [List.foldl_append, List.foldl_cons, List.foldl_nil, IniReader.add, IniReader.valueHandler]
    by_cases hmatch : e.sect.map tolower = sect.map tolower ∧ e.name.map tolower = name.map tolower
    · have hthis : IniReader.makeKey sect name = IniReader.makeKey e.sect e.name :=
        hkey.mpr ⟨hmatch.1.symm, hmatch.2.symm⟩
      have hvalues : valuesOf sect name (es ++ [e]) = valuesOf sect name es ++ [e.value] := by
        simp [valuesOf, hmatch]
      rw [hthis, Function.update_self, ← hthis, ih, hold, hvalues, joined_concat,
        if_neg (List.append_ne_nil_of_right_ne_nil _ (List.cons_ne_nil _ _))]
    · have hother : IniReader.makeKey sect name ≠ IniReader.makeKey e.sect e.name :=
        fun heq => hmatch ⟨(hkey.mp heq).1.symm, (hkey.mp heq).2.symm⟩
      have hvalues : valuesOf sect name (es ++ [e]) = valuesOf sect name es := by
        simpa [valuesOf] using hmatch
      rw [Function.update_of_ne hother, ih, hvalues]

/-- The sections of a document have no equals sign. -/
theorem not_mem_sect {d : List Item} {p : Place} (hp : p.sect.all isNameChar = true)
    (h : wellFormedFrom p d = true) : ∀ e ∈ entriesFrom p d, '=' ∉ e.sect := by
  induction d generalizing p with
  | nil => exact fun e he => absurd he List.not_mem_nil
  | cons i d ih =>
    simp only [wellFormedFrom, Bool.and_eq_true] at h
    intro e he
    rcases List.mem_append.mp he with he | he
    · have hsect : e.sect = p.sect := by
        cases i <;> simp [Item.entry] at he <;> simp [he]
      exact hsect ▸ fun hmem => ne_of_all hp hmem rfl rfl
    · refine ih ?_ h.2 e he
      cases i with
      | heading sect trail =>
        simp only [Item.isPlain, Bool.and_eq_true] at h
        exact h.1.1.1
      | _ => exact hp

/-- **A configuration is read back**: from the text of a well-formed document the parser reads, for
every name of a section, the values that the document gives to it, one line for each. -/
theorem get_iniReader_text {d : Document} (h : d.isWellFormed = true) {sect : Str}
    (hsect : '=' ∉ sect) (name default : Str) :
    (iniReader (some d.text)).get sect name default =
      if valuesOf sect name d.entries = [] then default
      else joined (valuesOf sect name d.entries) := by
  have hread := (parseStream_text (s := .started) ⟨rfl, rfl⟩ h).1
  rw [iniReader, IniReader.get, hread]
  rw [Document.entries, Ini.started, foldl_add _ (not_mem_sect rfl h) hsect]
  split <;> rfl

end SimpleTSDB.Config

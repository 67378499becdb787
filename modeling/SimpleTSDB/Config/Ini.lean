import Mathlib.Data.List.DropRight
import Mathlib.Logic.Function.Basic
import SimpleTSDB.CString

/-!
# The parser of the configuration

The lines of a file are read into a buffer of `INI_MAX_LINE` characters, so that a longer line is
read as several ones. Each line is a blank one, a comment, the heading of a section, the
continuation of the value before it, or a pair of a name and a value (`parseStart`). The values of
a key are put together, line by line (`IniReader.valueHandler`).
-/

namespace SimpleTSDB.Config

/-- `INI_MAX_LINE`. -/
def maxLine : ℕ := 200

/-- `MAX_SECTION` and `MAX_NAME`. -/
def maxName : ℕ := 50

/-- `rstrip`. -/
def rstrip (s : Str) : Str := s.rdropWhile isspace

/-- `lskip`. -/
def lskip (s : Str) : Str := s.dropWhile isspace

/-- `find_chars_or_comment`: the text in front of the character that is found, and the text from
there on. -/
def findCharsOrComment (chars : Str) : Bool → Str → Str × Str
  | _, [] => ([], [])
  | wasSpace, c :: s =>
    if chars.contains c || (wasSpace && c = ';') then ([], c :: s)
    else
      let (front, rest) := findCharsOrComment chars (isspace c) s
      (c :: front, rest)

/-- `strncpy0` to a buffer of `size` characters. -/
def strncpy0 (src : Str) (size : ℕ) : Str := src.take (size - 1)

theorem rstrip_append (s : Str) {trail : Str} (h : trail.all isspace = true) :
    rstrip (s ++ trail) = rstrip s := by
  induction trail using List.reverseRecOn with
  | nil => rw [List.append_nil]
  | append_singleton trail c ih =>
    rw [List.all_append, Bool.and_eq_true] at h
    have hc : isspace c = true := by simpa using h.2
    rw [rstrip, ← List.append_assoc, List.rdropWhile_concat_pos _ _ _ hc]
    exact ih h.1

theorem rstrip_eq_self {s : Str} (h : ∀ c ∈ s.getLast?, isspace c = false) : rstrip s = s :=
  List.rdropWhile_eq_self_iff.mpr fun hs => by simp [h _ (List.getLast?_eq_getLast_of_ne_nil hs)]

theorem lskip_append {lead : Str} (h : lead.all isspace = true) (s : Str) :
    lskip (lead ++ s) = lskip s :=
  List.dropWhile_append_of_pos (List.all_eq_true.mp h)

theorem lskip_eq_self {s : Str} (h : ∀ c ∈ s.head?, isspace c = false) : lskip s = s := by
  cases s with
  | nil => rfl
  | cons c s => exact List.dropWhile_cons_of_neg (by simp [h c rfl])

/-- The text in front of a special character, if it has no special one and no comment. -/
theorem findCharsOrComment_append {chars front : Str} {stop : Char} (hstop : stop ∈ chars)
    (hfront : ∀ c ∈ front, c ∉ chars ∧ c ≠ ';') (wasSpace : Bool) (rest : Str) :
    findCharsOrComment chars wasSpace (front ++ stop :: rest) = (front, stop :: rest) := by
  induction front generalizing wasSpace with
  | nil => simp [findCharsOrComment, hstop]
  | cons c front ih =>
    obtain ⟨hc, hmark⟩ := hfront c List.mem_cons_self
    rw [List.cons_append, findCharsOrComment, if_neg (by simp [hc, hmark]),
      ih fun c hc => hfront c (List.mem_cons_of_mem _ hc)]

/-! ## The values -/

/-- The values of an `INIReader`, by key. -/
abbrev IniReader := Str → Option Str

namespace IniReader

/-- `MakeKey`. -/
def makeKey (sect name : Str) : Str := (sect ++ '=' :: name).map tolower

/-- `ValueHandler`. -/
def valueHandler (r : IniReader) (sect name value : Str) : IniReader :=
  let key := makeKey sect name
  let old := (r key).getD []
  Function.update r key (some (if old ≠ [] then old ++ '\n' :: value else value))

/-- `Get`. -/
def get (r : IniReader) (sect name default : Str) : Str := (r (makeKey sect name)).getD default

end IniReader

/-! ## The lines -/

/-- The variables of `ini_parse_stream`. -/
structure Ini where
  sect : Str
  prevName : Str
  lineno : ℕ
  -- the first line with an error
  error : ℕ
  values : IniReader

namespace Ini

def started : Ini where
  sect := []
  prevName := []
  lineno := 0
  error := 0
  values := fun _ => none

/-- `if (!error) error = lineno`. -/
def fail (s : Ini) : Ini := { s with error := if s.error = 0 then s.lineno else s.error }

/-- The handler is called; it returns 1. -/
def handle (s : Ini) (name value : Str) : Ini :=
  { s with values := s.values.valueHandler s.sect name value }

/-- A line without the whitespace around it; `indented` says if there is some in front of it. -/
def parseStart (s : Ini) (indented : Bool) (start : Str) : Ini :=
  match start with
  -- `strchr` finds the NUL at the end of the prefixes of comments
  | [] => s
  | c :: text =>
    if c = ';' || c = '#' then s
    else if s.prevName ≠ [] && indented then s.handle s.prevName start
    else if c = '[' then
      match findCharsOrComment "]".toList false text with
      | (sect, ']' :: _) => { s with sect := strncpy0 sect maxName, prevName := [] }
      | _ => s.fail
    else
      match findCharsOrComment "=:".toList false start with
      | (name, mark :: text) =>
        if mark = '=' || mark = ':' then
          let name := rstrip name
          let value := rstrip (lskip (findCharsOrComment [] false text).1)
          { s.handle name value with prevName := strncpy0 name maxName }
        else s.fail
      | _ => s.fail

/-- The mark of UTF-8. -/
def bom : Str := ['\xef', '\xbb', '\xbf']

/-- The body of the loop. -/
def parseLine (s : Ini) (line : Str) : Ini :=
  let s := { s with lineno := s.lineno + 1 }
  let marked := s.lineno = 1 && bom.isPrefixOf line
  let text := rstrip (if marked then line.drop bom.length else line)
  let start := lskip text
  s.parseStart (marked || start.length < text.length) start

end Ini

/-- `fgets`, for a buffer of one more character: the line, and what is left of the stream. -/
def fgets : ℕ → Str → Str × Str
  | 0, stream => ([], stream)
  | _ + 1, [] => ([], [])
  | n + 1, c :: stream =>
    if c = '\n' then ([c], stream)
    else
      let (line, rest) := fgets n stream
      (c :: line, rest)

theorem length_fgets (n : ℕ) (stream : Str) :
    (fgets n stream).1.length + (fgets n stream).2.length = stream.length := by
  induction n generalizing stream with
  | zero => simp [fgets]
  | succ n ih =>
    cases stream with
    | nil => rfl
    | cons c stream =>
      have hrest := ih stream
      rw [fgets]
      split
      · simp [Nat.add_comm]
      · simp only [List.length_cons]
        omega

theorem length_fgets_lt {n : ℕ} (hn : n ≠ 0) {stream : Str} (hs : stream ≠ []) :
    (fgets n stream).2.length < stream.length := by
  obtain ⟨n, rfl⟩ := Nat.exists_eq_succ_of_ne_zero hn
  obtain ⟨c, stream, rfl⟩ := List.exists_cons_of_ne_nil hs
  have hlen := length_fgets n stream
  rw [fgets]
  split
  · simp
  · simp only [List.length_cons]
    omega

/-- `ini_parse_stream`. -/
def parseStream (s : Ini) (stream : Str) : Ini :=
  if h : stream = [] then s
  else
    parseStream (s.parseLine (cstr (fgets (maxLine - 1) stream).1)) (fgets (maxLine - 1) stream).2
termination_by stream.length
decreasing_by exact length_fgets_lt (by decide) h

/-- The constructor of `INIReader`; `none` is a file that cannot be opened. -/
def iniReader : Option Str → IniReader
  | none => fun _ => none
  | some stream => (parseStream .started stream).values

end SimpleTSDB.Config

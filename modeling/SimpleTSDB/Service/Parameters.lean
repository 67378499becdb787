import SimpleTSDB.CString

/-!
# The parameters of the program

The arguments of the command line are parsed by a list of parameters. A parameter with a value takes
it from behind the delimiter, or from the next argument; a switch may be combined with other ones. A
parser that throws ends the program.
-/

namespace SimpleTSDB.Service

/-- What a parameter does. -/
inductive Kind
  -- a `ValueArg`
  | value
  -- a `SwitchArg`, without a visitor, with an `IgnoreRestVisitor`, and with a `HelpVisitor` or a
  -- `VersionVisitor`
  | switch
  | ignoreRest
  | exits
deriving DecidableEq

/-- An `Arg`. -/
structure Param where
  flag : Str
  name : Str
  kind : Kind

/-- The values of the parameters that are set, by name, and the flag of `Arg::ignoreRest`. -/
structure Parsed where
  values : List (Str × Str)
  ignoreRest : Bool

/-- `getValue`, if `isSet`. -/
def Parsed.get (st : Parsed) (name : Str) : Option Str := st.values.lookup name

/-- What is left of the arguments, and whether one has been matched. -/
structure Progress where
  isMatched : Bool
  st : Parsed
  arg : Str
  rest : List Str

/-- `_hasBlanks`: an argument of combined switches of which one has been matched. -/
def hasBlanks (s : Str) : Bool := s.tail.contains '\x07'

/-- `trimFlag`: the flag, and the value behind the delimiter. -/
def trimFlag (flag : Str) : Str × Str :=
  match flag.findIdx? (· = ' ') with
  | some stop => if stop > 1 then (flag.take stop, flag.drop (stop + 1)) else (flag, [])
  | none => (flag, [])

namespace Param

/-- `argMatches`. -/
def argMatches (a : Param) (s : Str) : Bool :=
  (s = '-' :: a.flag && a.flag ≠ []) || s = '-' :: '-' :: a.name

/-- `combinedSwitchesMatch`: the switches that are left. -/
def combinedSwitchesMatch (a : Param) (s : Str) : Option Str :=
  if s.length > 0 && s.head? ≠ some '-' then none
  else if s.take 2 = "--".toList then none
  else if s.contains ' ' then none
  else
    match a.flag with
    | [] => none
    | f :: _ =>
      if f = '-' then none
      else (s.tail.findIdx? (· = f)).map fun i => s.set (i + 1) '\x07'

/-- `commonProcessing` of a switch; `none` if it throws. -/
def commonProcessing (a : Param) (st : Parsed) : Option Parsed :=
  if (st.get a.name).isSome then none
  else
    let st := { st with values := (a.name, []) :: st.values }
    match a.kind with
    | .ignoreRest => some { st with ignoreRest := true }
    | .exits => none
    | _ => some st

/-- `lastCombined`. -/
def lastCombined (s : Str) : Bool := s.tail.all (· = '\x07')

/-- `processArg` of a `ValueArg`. -/
def processValue (a : Param) (st : Parsed) (arg : Str) (rest : List Str) : Option Progress :=
  if st.ignoreRest then some ⟨false, st, arg, rest⟩
  else if hasBlanks arg then some ⟨false, st, arg, rest⟩
  else
    let (flag, value) := trimFlag arg
    if a.argMatches flag then
      if (st.get a.name).isSome then none
      else if value = [] then
        match rest with
        | [] => none
        | value :: rest =>
          some ⟨true, { st with values := (a.name, value) :: st.values }, arg, rest⟩
      else some ⟨true, { st with values := (a.name, value) :: st.values }, arg, rest⟩
    else some ⟨false, st, arg, rest⟩

/-- `processArg` of a `SwitchArg`. -/
def processSwitch (a : Param) (st : Parsed) (arg : Str) (rest : List Str) : Option Progress :=
  if st.ignoreRest then some ⟨false, st, arg, rest⟩
  else if a.argMatches arg then (a.commonProcessing st).map fun st => ⟨true, st, arg, rest⟩
  else
    match a.combinedSwitchesMatch arg with
    | none => some ⟨false, st, arg, rest⟩
    | some arg =>
      if (a.combinedSwitchesMatch arg).isSome then none
      else (a.commonProcessing st).map fun st => ⟨lastCombined arg, st, arg, rest⟩

def processArg (a : Param) : Parsed → Str → List Str → Option Progress :=
  if a.kind = .value then a.processValue else a.processSwitch

end Param

/-- The parameters try one argument. -/
def processArgs : List Param → Parsed → Str → List Str → Option Progress
  | [], st, arg, rest => some ⟨false, st, arg, rest⟩
  | a :: as, st, arg, rest =>
    match a.processArg st arg rest with
    | none => none
    | some p => if p.isMatched then some p else processArgs as p.st p.arg p.rest

/-- `_emptyCombined`. -/
def emptyCombined (s : Str) : Bool :=
  !(s.length > 0 && s.head? ≠ some '-') && s.tail.all (· = '\x07')

/-- The loop of `CmdLine::parse`, for at most so many arguments. -/
def parseFrom (as : List Param) : ℕ → Parsed → List Str → Option Parsed
  | _, st, [] => some st
  | 0, st, _ :: _ => some st
  | n + 1, st, arg :: rest =>
    match processArgs as st arg rest with
    | none => none
    | some p =>
      if p.isMatched || emptyCombined p.arg || p.st.ignoreRest then parseFrom as n p.st p.rest
      else none

/-- `CmdLine::parse`, of parameters none of which is required; the first argument is the name of the
program. The flag of `Arg::ignoreRest` is left by the parser before. -/
def parse (as : List Param) (ignoreRest : Bool) : List Str → Option Parsed
  | [] => none
  | _ :: args => parseFrom as args.length ⟨[], ignoreRest⟩ args

/-! ## The characters of the values -/

/-- The characters of the values and of the arguments are in a class. -/
structure Progress.All (Q : Char → Prop) (p : Progress) : Prop where
  values : ∀ v ∈ p.st.values, ∀ c ∈ v.2, Q c
  arg : ∀ c ∈ p.arg, Q c
  rest : ∀ arg ∈ p.rest, ∀ c ∈ arg, Q c

theorem mem_of_mem_trimFlag {s : Str} {c : Char} (h : c ∈ (trimFlag s).2) : c ∈ s := by
  rw [trimFlag] at h
  split at h
  · split at h
    · exact List.mem_of_mem_drop h
    · cases h
  · cases h

section Characters

variable {Q : Char → Prop} {a : Param} {st : Parsed} {arg : Str} {rest : List Str} {p : Progress}

theorem Progress.All.add {isMatched : Bool} (h : Progress.All Q ⟨isMatched, st, arg, rest⟩)
    {value : Str} (hvalue : ∀ c ∈ value, Q c) (name : Str) {ignoreRest isMatched' : Bool} :
    Progress.All Q ⟨isMatched', ⟨(name, value) :: st.values, ignoreRest⟩, arg, rest⟩ where
  values := by
    intro v hv
    rcases List.mem_cons.mp hv with rfl | hv
    · exact hvalue
    · exact h.values v hv
  arg := h.arg
  rest := h.rest

theorem all_processValue (h : Progress.All Q ⟨false, st, arg, rest⟩)
    (hp : a.processValue st arg rest = some p) : p.All Q := by
  unfold Param.processValue at hp
  split at hp
  · exact Option.some.inj hp ▸ h
  split at hp
  · exact Option.some.inj hp ▸ h
  dsimp only at hp
  split at hp
  · split at hp
    · cases hp
    split at hp
    · split at hp
      · cases hp
      · next value rest =>
        obtain rfl := Option.some.inj hp
        have htail : Progress.All Q ⟨false, st, arg, rest⟩ :=
          ⟨h.values, h.arg, fun arg harg => h.rest arg (List.mem_cons_of_mem _ harg)⟩
        exact htail.add (h.rest value List.mem_cons_self) a.name
    · obtain rfl := Option.some.inj hp
      exact h.add (fun c hc => h.arg c (mem_of_mem_trimFlag hc)) a.name
  · exact Option.some.inj hp ▸ h

theorem all_commonProcessing {isMatched : Bool} (h : Progress.All Q ⟨isMatched, st, arg, rest⟩)
    {st' : Parsed} (hst : a.commonProcessing st = some st') (isMatched' : Bool) :
    Progress.All Q ⟨isMatched', st', arg, rest⟩ := by
  rw [Param.commonProcessing] at hst
  split at hst
  · cases hst
  dsimp only at hst
  have hnil : ∀ c ∈ ([] : Str), Q c := fun c hc => absurd hc List.not_mem_nil
  split at hst
  · exact Option.some.inj hst ▸ h.add hnil a.name
  · cases hst
  · exact Option.some.inj hst ▸ h.add hnil a.name

theorem all_combinedSwitchesMatch (hblank : Q '\x07') {s s' : Str} (hs : ∀ c ∈ s, Q c)
    (h : a.combinedSwitchesMatch s = some s') : ∀ c ∈ s', Q c := by
  unfold Param.combinedSwitchesMatch at h
  split at h
  · cases h
  split at h
  · cases h
  split at h
  · cases h
  split at h
  · cases h
  split at h
  · cases h
  · obtain ⟨i, -, rfl⟩ := Option.map_eq_some_iff.mp h
    intro c hc
    rcases List.mem_or_eq_of_mem_set hc with hc | rfl
    · exact hs c hc
    · exact hblank

theorem all_processSwitch (hblank : Q '\x07') (h : Progress.All Q ⟨false, st, arg, rest⟩)
    (hp : a.processSwitch st arg rest = some p) : p.All Q := by
  unfold Param.processSwitch at hp
  split at hp
  · exact Option.some.inj hp ▸ h
  split at hp
  · obtain ⟨st', hst', rfl⟩ := Option.map_eq_some_iff.mp hp
    exact all_commonProcessing h hst' true
  split at hp
  · exact Option.some.inj hp ▸ h
  · next arg' harg' =>
    split at hp
    · cases hp
    · obtain ⟨st', hst', rfl⟩ := Option.map_eq_some_iff.mp hp
      have h' : Progress.All Q ⟨false, st, arg', rest⟩ :=
        ⟨h.values, all_combinedSwitchesMatch hblank h.arg harg', h.rest⟩
      exact all_commonProcessing h' hst' _

/-- **The parameters** take the characters of a value from the arguments. -/
theorem all_processArgs {as : List Param} (hblank : Q '\x07')
    (h : Progress.All Q ⟨false, st, arg, rest⟩) (hp : processArgs as st arg rest = some p) :
    p.All Q := by
  induction as generalizing st arg rest with
  | nil => exact Option.some.inj hp ▸ h
  | cons a as ih =>
    rw [processArgs] at hp
    split at hp
    · cases hp
    · next p' hp' =>
      have hall : p'.All Q := by
        rw [Param.processArg] at hp'
        split at hp'
        · exact all_processValue h hp'
        · exact all_processSwitch hblank h hp'
      split at hp
      · exact Option.some.inj hp ▸ hall
      · exact ih ⟨hall.values, hall.arg, hall.rest⟩ hp

theorem all_parseFrom {as : List Param} (hblank : Q '\x07') {n : ℕ} {args : List Str}
    {st' : Parsed} (hvalues : ∀ v ∈ st.values, ∀ c ∈ v.2, Q c)
    (hargs : ∀ arg ∈ args, ∀ c ∈ arg, Q c) (h : parseFrom as n st args = some st') :
    ∀ v ∈ st'.values, ∀ c ∈ v.2, Q c := by
  induction n generalizing st args with
  | zero =>
    cases args <;> exact Option.some.inj h ▸ hvalues
  | succ n ih =>
    cases args with
    | nil => exact Option.some.inj h ▸ hvalues
    | cons arg rest =>
      rw [parseFrom] at h
      split at h
      · cases h
      · next p hp =>
        have hall := all_processArgs hblank ⟨hvalues, hargs arg List.mem_cons_self,
          fun arg harg => hargs arg (List.mem_cons_of_mem _ harg)⟩ hp
        split at h
        · exact ih hall.values hall.rest h
        · cases h

/-- **The parser** takes the characters of the values from the arguments. -/
theorem all_parse {as : List Param} {ignoreRest : Bool} {args : List Str} (hblank : Q '\x07')
    (h : ∀ arg ∈ args, ∀ c ∈ arg, Q c) (hst : parse as ignoreRest args = some st) :
    ∀ v ∈ st.values, ∀ c ∈ v.2, Q c := by
  cases args with
  | nil => cases hst
  | cons arg args =>
    exact all_parseFrom hblank (fun v hv => absurd hv List.not_mem_nil)
      (fun arg harg => h arg (List.mem_cons_of_mem _ harg)) hst

end Characters

end SimpleTSDB.Service

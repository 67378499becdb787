import SimpleTSDB.Service.CommandLine
import SimpleTSDB.Service.Parameters

/-!
# The installation of the service

The program installs itself as a service whose command line has the path of the configuration in
quotes. The service is the same program: it splits its command line and parses its parameters like
the program that has installed it, and the kernel parses them once more for the path.
`installed_iff` says when the service reads the file that it has been installed with.
-/

namespace SimpleTSDB.Service

open Runs

/-! ## Lines that are put together -/

theorem inQuotes_append {l : Str} (h : inQuotes l = false) (r : Str) :
    inQuotes (l ++ r) = inQuotes r := by
  unfold inQuotes at h ⊢
  rw [decide_eq_false_iff_not] at h
  rw [List.count_append, decide_eq_decide]
  omega

/-- Behind a text with all its quotes closed, a text is read as if it were alone. -/
theorem marked_append {l : Str} (h : inQuotes l = false) (r : Str) :
    marked (l ++ r) = marked l ++ marked r := by
  unfold marked
  rw [List.mapIdx_append]
  congr 1
  · refine List.mapIdx_eq_mapIdx_iff.mpr fun i hi => ?_
    rw [List.take_append_of_le_length hi.le]
  · refine List.mapIdx_eq_mapIdx_iff.mpr fun i hi => ?_
    rw [Nat.add_comm, List.take_length_add_append, inQuotes_append h]

/-- A blank outside of quotes cuts the arguments in two. -/
theorem arguments_append {l : Str} (h : inQuotes l = false) (r : Str) :
    arguments (l ++ ' ' :: r) = arguments l ++ arguments r := by
  have hblank : marked (' ' :: r) = (' ', false) :: marked r := @marked_append [' '] rfl r
  rw [arguments, marked_append h, hblank, runs_append_cons _ _ rfl, List.map_append]
  rfl

/-- A text without a blank outside of quotes is one argument. -/
theorem arguments_word {w : Str} (hne : w ≠ []) (h : ∀ x ∈ marked w, separates x = false) :
    arguments w = [w.filter (· ≠ '"')] := by
  have hmarked : marked w ≠ [] := by
    rw [← List.length_pos_iff, length_marked]
    exact List.length_pos_iff.mpr hne
  rw [arguments, runs_of_forall hmarked h, List.map_singleton, plain, map_fst_marked]

/-- A text in quotes. -/
def quote (a : Str) : Str := '"' :: a ++ ['"']

theorem mem_quote {a : Str} {Q : Char → Prop} (ha : ∀ c ∈ a, Q c) (hquote : Q '"') :
    ∀ c ∈ quote a, Q c := by
  intro c hc
  rw [quote, List.cons_append, List.mem_cons, List.mem_append, List.mem_singleton] at hc
  rcases hc with rfl | hc | rfl
  · exact hquote
  · exact ha c hc
  · exact hquote

/-- Nothing separates behind an opening quote. -/
theorem opened {a : Str} (h : '"' ∉ a) :
    inQuotes ('"' :: a) = true ∧ ∀ x ∈ marked ('"' :: a), separates x = false := by
  induction a using List.reverseRecOn with
  | nil => decide
  | append_singleton a c ih =>
    rw [List.mem_append, not_or] at h
    obtain ⟨hquotes, hmarked⟩ := ih h.1
    have hc : c ≠ '"' := fun heq => h.2 (heq ▸ List.mem_singleton_self c)
    rw [← List.cons_append, inQuotes_concat, if_neg hc, marked_concat, hquotes]
    refine ⟨rfl, fun x hx => ?_⟩
    rcases List.mem_append.mp hx with hx | hx
    · exact hmarked x hx
    · obtain rfl := List.mem_singleton.mp hx
      rw [separates, Bool.not_true, Bool.and_false]

/-- **A text in quotes is one argument.** -/
theorem arguments_quote {a : Str} (h : '"' ∉ a) :
    inQuotes (quote a) = false ∧ arguments (quote a) = [a] := by
  obtain ⟨hquotes, hmarked⟩ := opened h
  constructor
  · rw [quote, inQuotes_concat, if_pos rfl, hquotes]
    rfl
  · have hone : ∀ x ∈ marked (quote a), separates x = false := by
      intro x hx
      rw [quote, marked_concat] at hx
      rcases List.mem_append.mp hx with hx | hx
      · exact hmarked x hx
      · obtain rfl := List.mem_singleton.mp hx
        exact separates_quote _
    have hfilter : ∀ c ∈ a, c ≠ '"' := by
      rintro c hc rfl
      exact h hc
    have hne : quote a ≠ [] := List.cons_ne_nil _ _
    rw [arguments_word hne hone, quote]
    simpa using hfilter

/-! ## The program -/

/-- `MAX_PATH`. -/
def maxPath : ℕ := 260

def IsAscii (s : Str) : Prop := ∀ c ∈ s, c.toNat < 128

/-- The conversions between narrow and wide texts, `mbstowcs` and that of `GetCommandLineA`. -/
structure Codepage where
  widen : Str → Str
  narrow : Str → Str
  widen_ascii : ∀ s, IsAscii s → widen s = s
  narrow_ascii : ∀ s, IsAscii s → narrow s = s

/-- The vector of the arguments; `none` if the split fails or an argument is a null pointer. -/
def argsOf (cmdline : Str) (block : Block (cstr cmdline).length) : Option (List Str) :=
  (commandLineToArgvA cmdline block).bind fun r => r.strings.mapM id

/-- The parameters of `WinMain`, the last one that is added in front. -/
def winMainParams : List Param :=
  [⟨[], "install".toList, .value⟩, ⟨[], "uninstall".toList, .switch⟩, ⟨[], "config".toList, .value⟩,
    ⟨"-".toList, "ignore_rest".toList, .ignoreRest⟩]

/-- The parameters of `Kernel`. -/
def kernelParams : List Param :=
  [⟨[], "config".toList, .value⟩, ⟨"-".toList, "ignore_rest".toList, .ignoreRest⟩,
    ⟨[], "version".toList, .exits⟩, ⟨"h".toList, "help".toList, .exits⟩]

/-- What `WinMain` does. -/
inductive Started
  | install (config : Str)
  | uninstall
  -- the service runs, with the flag of `Arg::ignoreRest`
  | service (ignoreRest : Bool)

/-- `WinMain`. -/
def winMain (args : List Str) : Option Started :=
  (parse winMainParams false args).map fun st =>
    match st.get "install".toList with
    | some config => .install config
    | none =>
      if (st.get "uninstall".toList).isSome then .uninstall else .service st.ignoreRest

/-- The command line that `ServiceInstall` gives to the service. -/
def binaryPath (cp : Codepage) (szPath configFilePath : Str) : Str :=
  quote szPath ++ " --config ".toList ++
    quote ((cp.widen (cstr configFilePath)).take (maxPath - 1))

/-- The default of `Kernel`. -/
def defaultConf (datadir : Str) : Str := datadir ++ "\\".toList ++ "stsdbd.conf".toList

/-- The file that `Kernel` reads its configuration from. -/
def configPath (ignoreRest : Bool) (datadir : Str) (args : List Str) : Option Str :=
  (parse kernelParams ignoreRest args).map fun st =>
    match st.get "config".toList with
    | some config => if config ≠ ".".toList then config else defaultConf datadir
    | none => defaultConf datadir

/-- The file that the service reads its configuration from: `WinMain`, and `ServiceMain`, which
splits the command line again. -/
def serviceConfig (datadir cmdline : Str) (block block' : Block (cstr cmdline).length) :
    Option Str := do
  match ← winMain (← argsOf cmdline block) with
  | .service ignoreRest => configPath ignoreRest datadir (← argsOf cmdline block')
  | _ => none

/-! ## The service -/

theorem argsOf_eq {cmdline : Str} (block : Block (cstr cmdline).length)
    (h : (arguments (cstr cmdline)).length < 2 ^ 31) :
    argsOf cmdline block = some (arguments (cstr cmdline)) := by
  obtain ⟨r, hr, -, hstrings⟩ := splits_of_lt block h
  have hmap (l : List Str) : (l.map some).mapM id = some l := by
    induction l with
    | nil => rfl
    | cons a l ih => simp [ih]
  rw [argsOf, hr, Option.bind_some, hstrings, hmap]

/-- The vector has the arguments of the line. -/
theorem argsOf_eq_some {cmdline : Str} {block : Block (cstr cmdline).length} {args : List Str}
    (h : argsOf cmdline block = some args) : args = arguments (cstr cmdline) := by
  by_cases hlt : (arguments (cstr cmdline)).length < 2 ^ 31
  · rw [argsOf_eq block hlt] at h
    exact (Option.some.inj h).symm
  · rw [argsOf, commandLineToArgvA_eq_none cmdline block (Nat.not_lt.mp hlt)] at h
    cases h

/-- A line that installs the service with a configuration. -/
def Installs (cmdline config : Str) : Prop :=
  ∃ (block : Block (cstr cmdline).length) (args : List Str),
    argsOf cmdline block = some args ∧ winMain args = some (.install config)

/-- An argument has no quote. -/
theorem quote_not_mem_arguments {line arg : Str} (h : arg ∈ arguments line) : '"' ∉ arg := by
  obtain ⟨run, -, rfl⟩ := List.mem_map.mp h
  simp [plain]

/-- The characters of the configuration are those of the line, or the mark of a switch that has been
matched. -/
theorem mem_of_installs {cmdline config : Str} (h : Installs cmdline config) {Q : Char → Prop}
    (hblank : Q '\x07') (hQ : ∀ c ∈ cstr cmdline, c ≠ '"' → Q c) : ∀ c ∈ config, Q c := by
  obtain ⟨block, args, hargs, hinstall⟩ := h
  obtain rfl := argsOf_eq_some hargs
  obtain ⟨st, hst, hstarted⟩ := Option.map_eq_some_iff.mp hinstall
  have hchars : ∀ arg ∈ arguments (cstr cmdline), ∀ c ∈ arg, Q c := fun arg harg c hc =>
    hQ c (mem_of_mem_arguments harg hc) fun heq => quote_not_mem_arguments harg (heq ▸ hc)
  cases hget : st.get "install".toList with
  | none =>
    simp only [hget] at hstarted
    split at hstarted <;> cases hstarted
  | some value =>
    rw [hget] at hstarted
    obtain rfl := Started.install.inj hstarted
    obtain ⟨l, r, hvalues, -⟩ := List.lookup_eq_some_iff.mp hget
    have hmem : ("install".toList, value) ∈ st.values := hvalues ▸ List.mem_append_right _
      List.mem_cons_self
    exact all_parse hblank hchars hst _ hmem

/-- The command line of the service has three arguments. -/
theorem arguments_binaryPath {cp : Codepage} {path config : Str} (hpath : '"' ∉ path)
    (hconfig : '"' ∉ (cp.widen (cstr config)).take (maxPath - 1)) :
    arguments (binaryPath cp path config) =
      [path, "--config".toList, (cp.widen (cstr config)).take (maxPath - 1)] := by
  obtain ⟨hquotes, harg⟩ := arguments_quote hpath
  have hline : binaryPath cp path config = quote path ++
      ' ' :: ("--config".toList ++ ' ' :: quote ((cp.widen (cstr config)).take (maxPath - 1))) := by
    rw [binaryPath, List.append_assoc]
    rfl
  rw [hline, arguments_append hquotes, arguments_append (by decide), harg,
    (arguments_quote hconfig).2]
  rfl

/-- **The service reads the file that it has been installed with if and only if** its path is
shorter than `MAX_PATH` and is not `.`, which stands for the default. -/
theorem installed_iff (cp : Codepage) (cmdline config path datadir : Str)
    (h : Installs cmdline config) (hascii : IsAscii cmdline)
    (hpath : IsAscii path ∧ '"' ∉ path ∧ '\x00' ∉ path)
    (block block' : Block (cstr (cp.narrow (binaryPath cp path config))).length) :
    ∃ file, serviceConfig datadir (cp.narrow (binaryPath cp path config)) block block' = some file ∧
      (file = config ↔ config.length < maxPath ∧ config ≠ ".".toList) := by
  obtain ⟨hpath, hquote, hnul⟩ := hpath
  have hchars : ∀ c ∈ config, c ≠ '"' ∧ c.toNat < 128 ∧ c ≠ '\x00' := by
    refine mem_of_installs h (by decide) fun c hc hne => ⟨hne, hascii c ?_, ?_⟩
    · exact (List.takeWhile_sublist _).subset hc
    · rintro rfl
      exact nul_not_mem_cstr cmdline hc
  have hwiden : cp.widen (cstr config) = config := by
    rw [cstr_eq_self fun hmem => (hchars _ hmem).2.2 rfl]
    exact cp.widen_ascii config fun c hc => (hchars c hc).2.1
  obtain ⟨short, hshort⟩ : ∃ short, config.take (maxPath - 1) = short := ⟨_, rfl⟩
  have hsub : ∀ c ∈ short, c ≠ '"' ∧ c.toNat < 128 ∧ c ≠ '\x00' := fun c hc =>
    hchars c (List.mem_of_mem_take (hshort ▸ hc))
  have hline : cstr (cp.narrow (binaryPath cp path config)) = binaryPath cp path config := by
    have hplain : ∀ c ∈ binaryPath cp path config, c.toNat < 128 ∧ c ≠ '\x00' := by
      have hfront : ∀ c ∈ quote path, c.toNat < 128 ∧ c ≠ '\x00' :=
        mem_quote (fun c hc => ⟨hpath c hc, fun heq => hnul (heq ▸ hc)⟩) (by decide)
      have hflag : ∀ c ∈ " --config ".toList, c.toNat < 128 ∧ c ≠ '\x00' := by decide
      have hback : ∀ c ∈ quote short, c.toNat < 128 ∧ c ≠ '\x00' :=
        mem_quote (fun c hc => (hsub c hc).2) (by decide)
      rw [binaryPath, hwiden, hshort]
      intro c hc
      rcases List.mem_append.mp hc with hc | hc
      · exact (List.mem_append.mp hc).elim (hfront c) (hflag c)
      · exact hback c hc
    rw [cp.narrow_ascii _ fun c hc => (hplain c hc).1]
    exact cstr_eq_self fun hmem => (hplain _ hmem).2 rfl
  have hargs : arguments (cstr (cp.narrow (binaryPath cp path config))) =
      [path, "--config".toList, short] := by
    rw [hline, arguments_binaryPath hquote, hwiden, hshort]
    rw [hwiden, hshort]
    exact fun hmem => (hsub _ hmem).1 rfl
  have hlt : (arguments (cstr (cp.narrow (binaryPath cp path config)))).length < 2 ^ 31 := by
    rw [hargs]
    exact show 3 < 2 ^ 31 by decide
  refine ⟨if short ≠ ".".toList then short else defaultConf datadir, ?_, ?_⟩
  · simp only [serviceConfig, argsOf_eq _ hlt, hargs, Option.bind_eq_bind, Option.bind_some]
    rfl
  · have hdefault : defaultConf datadir ≠ ".".toList := fun heq => by
      have hlen := congrArg List.length heq
      simp [defaultConf] at hlen
    by_cases hlen : config.length < maxPath
    · rw [List.take_of_length_le (Nat.le_sub_one_of_lt hlen)] at hshort
      subst hshort
      by_cases hpoint : config = ".".toList
      · rw [if_neg (not_not_intro hpoint)]
        exact iff_of_false (fun heq => hdefault (heq.trans hpoint)) fun h => h.2 hpoint
      · rw [if_pos hpoint]
        exact iff_of_true rfl ⟨hlen, hpoint⟩
    · -- the path is cut
      have hcut : short.length = maxPath - 1 := by
        rw [← hshort, List.length_take, Nat.min_eq_left]
        exact Nat.le_trans (Nat.sub_le _ _) (Nat.not_lt.mp hlen)
      have hpoint : short ≠ ".".toList := fun heq => by
        rw [heq] at hcut
        exact absurd hcut (by decide)
      rw [if_pos hpoint]
      refine iff_of_false (fun heq => hlen ?_) fun h => hlen h.1
      rw [← heq, hcut]
      decide

/-- A block of zeros. -/
def Block.zero (len : ℕ) : Block len where
  argv := List.replicate _ none
  chars := List.replicate _ '\x00'
  argv_length := List.length_replicate
  chars_length := List.length_replicate

/-- The conversions that keep all texts. -/
def Codepage.latin : Codepage := ⟨id, id, fun _ _ => rfl, fun _ _ => rfl⟩

/-- A line with a blank in the path. -/
def installLine : Str := "stsdb.exe --install \"C:\\My Files\\a.conf\"".toList

theorem installs_installLine : Installs installLine "C:\\My Files\\a.conf".toList :=
  ⟨.zero _, _, argsOf_eq _ (by decide +kernel), rfl⟩

theorem installed_iff_example : ∃ file,
    serviceConfig "C:\\Data".toList
      (binaryPath .latin "C:\\stsdb.exe".toList "C:\\My Files\\a.conf".toList) (.zero _) (.zero _) =
        some file ∧
      (file = "C:\\My Files\\a.conf".toList ↔
        "C:\\My Files\\a.conf".toList.length < maxPath ∧
          "C:\\My Files\\a.conf".toList ≠ ".".toList) :=
  installed_iff .latin installLine _ "C:\\stsdb.exe".toList "C:\\Data".toList installs_installLine
    (by unfold IsAscii; decide +kernel)
    ⟨by unfold IsAscii; decide +kernel, by decide, by decide⟩ _ _

end SimpleTSDB.Service

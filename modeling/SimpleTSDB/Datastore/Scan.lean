import SimpleTSDB.Datastore.Start

/-!
# Directories that are scanned

What the scan of `Start` makes of any listing: it throws at a file name that is shorter than the
extension, and otherwise `CacheDatabase` is called for the names in `scanCalls`, once for each file
(`start_eq`). A name is what stands one character before the extension, whether that character is a
dot or not, or the extension itself (`decodeName_eq_some_iff`). `tolerates_iff` says for which
listings the scan caches the databases that are there.
-/

namespace SimpleTSDB.Datastore

/-- The calls of `CacheDatabase` in the scan: the file name and the name of the database; `none` if
a `substr` throws. -/
def scanCalls (ext : Str) : List DirEntry → Option (List (Str × Str))
  | [] => some []
  | entry :: entries =>
    if entry.directory then scanCalls ext entries
    else match decodeName ext entry.name with
      | none => none
      | some none => scanCalls ext entries
      | some (some filename) => (scanCalls ext entries).map ((entry.name, filename) :: ·)

variable {F : Type*}

/-- The connections after some calls of `CacheDatabase`. -/
def cacheAll (cfg : Config F) (present : F → Bool) (disk : F → DbFile) (o : Str → CacheOutcome)
    (store : List (Str × F)) (calls : List (Str × Str)) : List (Str × F) :=
  calls.foldl
    (fun store c => (cacheDatabase cfg present disk (o c.1) store c.2 (cfg.path c.2)).1) store

/-- **The scan makes these calls.** -/
theorem start_eq (cfg : Config F) (present : F → Bool) (disk : F → DbFile)
    (o : Str → CacheOutcome) (entries : List DirEntry) :
    start cfg present disk o (some entries) = (scanCalls cfg.dbExt entries).map fun calls =>
      (cacheAll cfg present disk o [] calls, true) := by
  have hloop (store : List (Str × F)) : entries.foldlM (scanEntry cfg present disk o) store =
      (scanCalls cfg.dbExt entries).map (cacheAll cfg present disk o store) := by
    induction entries generalizing store with
    | nil => rfl
    | cons entry entries ih =>
      rw [List.foldlM_cons, scanEntry, scanCalls]
      by_cases hdir : entry.directory = true
      · rw [if_pos hdir, if_pos hdir]
        exact ih store
      · rw [if_neg hdir, if_neg hdir]
        cases decodeName cfg.dbExt entry.name with
        | none => rfl
        | some r =>
          cases r with
          | none => exact ih store
          | some filename =>
            refine (ih _).trans ?_
            rw [Option.map_map]
            rfl
  rw [start, hloop, Option.map_map]
  rfl

/-! ## The calls -/

/-- The extension behind a name and one character, or alone. -/
theorem decodeName_eq_some_iff {ext filename name : Str} :
    decodeName ext filename = some (some name) ↔
      filename = ext ∧ name = ext ∨ ∃ c, filename = name ++ c :: ext := by
  constructor
  · intro h
    obtain ⟨hfront, hsuffix⟩ := decodeName_infix h
    rcases Nat.lt_or_ge ext.length filename.length with hlt | hge
    · have hlen := length_of_decodeName hlt h
      obtain ⟨rest, rfl⟩ := hfront
      rw [List.length_append] at hlen
      obtain ⟨c, rest, rfl⟩ := List.exists_cons_of_length_pos (l := rest) (by omega)
      rw [List.length_cons] at hlen
      -- both ends of the file name have the length of the extension
      have hrest : rest <:+ name ++ c :: rest := (List.suffix_cons c rest).trans
        (List.suffix_append name _)
      have hext : ext = rest :=
        (List.suffix_of_suffix_length_le hsuffix hrest (by omega)).eq_of_length (by omega)
      exact .inr ⟨c, by rw [hext]⟩
    · obtain rfl := hsuffix.eq_of_length (hsuffix.length_le.antisymm hge)
      have hself : decodeName ext ext = some (some ext) := by simp [decodeName]
      rw [hself] at h
      exact .inl ⟨rfl, (Option.some.inj (Option.some.inj h)).symm⟩
  · rintro (⟨rfl, rfl⟩ | ⟨c, rfl⟩)
    · simp [decodeName]
    · exact decodeName_append ext name c

/-- A file name that is shorter than the extension is not decoded. -/
theorem decodeName_eq_none_iff {ext filename : Str} :
    decodeName ext filename = none ↔ filename.length < ext.length := by
  simp [decodeName]

/-- **The scan throws** exactly at a file name that is shorter than the extension. -/
theorem scanCalls_eq_none_iff {ext : Str} {entries : List DirEntry} :
    scanCalls ext entries = none ↔
      ∃ e ∈ entries, e.directory = false ∧ e.name.length < ext.length := by
  induction entries with
  | nil => simp [scanCalls]
  | cons entry entries ih =>
    rw [scanCalls, List.exists_mem_cons_iff, ← ih]
    by_cases hdir : entry.directory = true
    · simp [hdir]
    · cases hname : decodeName ext entry.name with
      | none => simp [hdir, decodeName_eq_none_iff.mp hname]
      | some r =>
        have hlong : ¬ entry.name.length < ext.length := by
          rw [← decodeName_eq_none_iff, hname]
          exact Option.some_ne_none r
        cases r <;> simp [hdir, hlong]

/-- The names for which `CacheDatabase` is called. -/
theorem mem_scanCalls {ext : Str} {entries : List DirEntry} {calls : List (Str × Str)}
    (h : scanCalls ext entries = some calls) (name : Str) :
    name ∈ calls.map Prod.snd ↔
      ∃ e ∈ entries, e.directory = false ∧ decodeName ext e.name = some (some name) := by
  induction entries generalizing calls with
  | nil =>
    obtain rfl := Option.some.inj h
    simp
  | cons entry entries ih =>
    rw [scanCalls] at h
    rw [List.exists_mem_cons_iff]
    by_cases hdir : entry.directory = true
    · rw [if_pos hdir] at h
      simp [hdir, ih h]
    · rw [if_neg hdir] at h
      cases hname : decodeName ext entry.name with
      | none =>
        rw [hname] at h
        cases h
      | some r =>
        rw [hname] at h
        cases r with
        | none => simp [ih h]
        | some filename =>
          obtain ⟨calls, hcalls, rfl⟩ := Option.map_eq_some_iff.mp h
          rw [List.map_cons, List.mem_cons, ih hcalls, Option.some.injEq, Option.some.injEq]
          simp only [hdir, true_and, eq_comm (a := name)]

/-! ## What the scan should do -/

/-- The scan does not throw, and it caches exactly the names, not empty, for which there is a file
with the extension. -/
def Tolerates (cfg : Config F) (entries : List DirEntry) : Prop :=
  (∀ present disk o, start cfg present disk o (some entries) ≠ none) ∧
    ∃ calls, scanCalls cfg.dbExt entries = some calls ∧
      ∀ name, name ∈ calls.map Prod.snd ↔
        name ≠ [] ∧ ⟨name ++ '.' :: cfg.dbExt, false⟩ ∈ entries

/-- **The scan tolerates a listing if and only if** no file name is shorter than the extension, a
file named like the extension, or with another character than a dot before it, has the database of
the name next to it, and no file has a dot and the extension only for its name. -/
theorem tolerates_iff (cfg : Config F) (hext : cfg.dbExt ≠ []) (entries : List DirEntry) :
    Tolerates cfg entries ↔ ∀ e ∈ entries, e.directory = false →
      cfg.dbExt.length ≤ e.name.length ∧
      (e.name = cfg.dbExt → ⟨cfg.dbExt ++ '.' :: cfg.dbExt, false⟩ ∈ entries) ∧
      ∀ name c, e.name = name ++ c :: cfg.dbExt →
        name ≠ [] ∧ ⟨name ++ '.' :: cfg.dbExt, false⟩ ∈ entries := by
  constructor
  · rintro ⟨-, calls, hcalls, hnames⟩ e he hdir
    have hnone : ¬ e.name.length < cfg.dbExt.length := by
      intro hlt
      rw [scanCalls_eq_none_iff.mpr ⟨e, he, hdir, hlt⟩] at hcalls
      cases hcalls
    have hcall {name : Str} (h : decodeName cfg.dbExt e.name = some (some name)) :
        name ≠ [] ∧ ⟨name ++ '.' :: cfg.dbExt, false⟩ ∈ entries :=
      (hnames name).mp ((mem_scanCalls hcalls name).mpr ⟨e, he, hdir, h⟩)
    refine ⟨Nat.not_lt.mp hnone, fun heq => ?_, fun name c heq => ?_⟩
    · exact (hcall (decodeName_eq_some_iff.mpr (.inl ⟨heq, rfl⟩))).2
    · exact hcall (decodeName_eq_some_iff.mpr (.inr ⟨c, heq⟩))
  · intro h
    have hcalls : scanCalls cfg.dbExt entries ≠ none := by
      rw [ne_eq, scanCalls_eq_none_iff]
      rintro ⟨e, he, hdir, hlt⟩
      exact absurd (h e he hdir).1 (Nat.not_le.mpr hlt)
    obtain ⟨calls, hcalls⟩ := Option.ne_none_iff_exists'.mp hcalls
    refine ⟨fun present disk o => ?_, calls, hcalls, fun name => ?_⟩
    · rw [start_eq, hcalls]
      exact Option.some_ne_none _
    · rw [mem_scanCalls hcalls]
      constructor
      · rintro ⟨e, he, hdir, hname⟩
        obtain ⟨-, hself, hnear⟩ := h e he hdir
        rcases decodeName_eq_some_iff.mp hname with ⟨heq, rfl⟩ | ⟨c, heq⟩
        · exact ⟨hext, hself heq⟩
        · exact hnear name c heq
      · rintro ⟨-, hfile⟩
        exact ⟨_, hfile, rfl, decodeName_append cfg.dbExt name '.'⟩

/-- A database and a side file of it. -/
theorem tolerates_example :
    Tolerates plainConfig [⟨"cpu.tsdb".toList, false⟩, ⟨"cpu.tsdb-wal".toList, false⟩] := by
  refine (tolerates_iff plainConfig (by decide) _).mpr ?_
  have hother : ¬ plainConfig.dbExt <:+ "cpu.tsdb-wal".toList := by decide
  rw [List.forall_mem_cons, List.forall_mem_singleton]
  refine ⟨fun _ => ⟨by decide, nofun, fun name c heq => ?_⟩, fun _ => ⟨by decide, nofun, ?_⟩⟩
  · have hcpu : "cpu".toList ++ '.' :: plainConfig.dbExt = name ++ c :: plainConfig.dbExt := heq
    obtain ⟨rfl, -⟩ := List.append_inj' hcpu rfl
    exact ⟨by decide, List.mem_cons_self⟩
  · intro name c heq
    refine absurd ⟨name ++ [c], ?_⟩ hother
    rw [List.append_assoc, List.singleton_append]
    exact heq.symm

/-- The name of a short file throws. -/
theorem not_tolerates : ¬ ∀ entries : List DirEntry, Tolerates plainConfig entries := by
  intro h
  exact (h [⟨"a".toList, false⟩]).1 (fun _ => true) (fun _ => {}) (fun _ => .ok) rfl

end SimpleTSDB.Datastore

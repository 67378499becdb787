import SimpleTSDB.Datastore.RoundTrip
import SimpleTSDB.Foundations.Walk

/-!
# Paths of databases

`CreateDatabase` puts the name of a metric into a path as it is, and the front ends let separators
and dots through. A path is resolved piece by piece, from the root or from the working directory.
`directlyInside_iff` says for which names the path leads to a file directly inside the data
directory: those whose directory part comes back to it.
-/

namespace SimpleTSDB.Datastore

open Walk

/-- The separators of paths; the one that the program writes is among them. -/
structure Separators where
  isSep : Char → Bool
  slash : isSep '/' = true

/-- The separators of POSIX. -/
def Separators.posix : Separators where
  isSep c := c == '/'
  slash := rfl

variable (sys : Separators) (cwd : List Str)

/-- The pieces of a path between its separators. -/
def pieces (path : Str) : List Str := path.splitOnP sys.isSep

/-- The step to a piece of a path. -/
def pieceMove (piece : Str) : Move Str :=
  if piece = [] ∨ piece = ".".toList then .stay
  else if piece = "..".toList then .up
  else .down piece

/-- The directory where the resolution of a path starts: the root if the path is absolute, else the
working directory. -/
def origin (path : Str) : List Str := if path.head?.any sys.isSep then [] else cwd

/-- Where a path leads. -/
def resolve (path : Str) : List Str := walk (origin sys cwd path) ((pieces sys path).map pieceMove)

/-- The path ends in the name of a file and leads to that file directly inside the directory. -/
def DirectlyInside (dir path : Str) : Prop :=
  ∃ file, (pieces sys path).getLast? = some file ∧ pieceMove file = .down file ∧
    resolve sys cwd path = resolve sys cwd (dir ++ "/".toList) ++ [file]

/-- The file part of a relative path is the name of a file, and its directory part comes back to
the directory `loc`: it goes down just those names of `loc` that it goes up. -/
def ComesBack (loc : List Str) (path : Str) : Prop :=
  (∃ file, (pieces sys path).getLast? = some file ∧ pieceMove file = .down file) ∧
    let (n, names) := cancel ((pieces sys path).dropLast.map pieceMove)
    names = loc.drop (loc.length - n)

variable {sys cwd}

theorem pieces_append (dir file : Str) :
    pieces sys (dir ++ '/' :: file) = pieces sys dir ++ pieces sys file :=
  List.splitOnP_append_cons dir file sys.slash

theorem origin_append (dir s t : Str) :
    origin sys cwd (dir ++ '/' :: s) = origin sys cwd (dir ++ '/' :: t) := by
  cases dir <;> rfl

/-- A path below a directory is resolved from there. -/
theorem resolve_append (dir file : Str) : resolve sys cwd (dir ++ '/' :: file) =
    walk (resolve sys cwd (dir ++ "/".toList)) ((pieces sys file).map pieceMove) := by
  have hslash : resolve sys cwd (dir ++ ['/']) =
      walk (origin sys cwd (dir ++ ['/'])) ((pieces sys dir).map pieceMove) := by
    rw [resolve, pieces_append, List.map_append, walk_append]
    rfl
  change _ = walk (resolve sys cwd (dir ++ ['/'])) _
  rw [hslash, resolve, pieces_append, List.map_append, walk_append, origin_append dir file []]

theorem path_eq {F : Type*} (cfg : Config F) (name : Str) :
    cfg.path name = cfg.dataDir ++ '/' :: (name ++ '.' :: cfg.dbExt) := by
  unfold Config.path
  simp

/-- **The names that stay inside the data directory**: the path of a database leads to a file
directly inside exactly if the file part of the name with its extension is the name of a file, and
the directory part comes back. -/
theorem directlyInside_iff {F : Type*} (sys : Separators) (cwd : List Str) (cfg : Config F)
    (name : Str) : DirectlyInside sys cwd cfg.dataDir (cfg.path name) ↔
      ComesBack sys (resolve sys cwd (cfg.dataDir ++ "/".toList)) (name ++ '.' :: cfg.dbExt) := by
  obtain ⟨dirs, file, hpieces⟩ : ∃ dirs file,
      pieces sys (name ++ '.' :: cfg.dbExt) = dirs ++ [file] :=
    ⟨_, _, (List.dropLast_append_getLast (List.splitOnP_ne_nil _ _)).symm⟩
  rw [DirectlyInside, ComesBack, path_eq, resolve_append, pieces_append, hpieces]
  simp only [← List.append_assoc, List.getLast?_concat, List.dropLast_concat, Option.some.injEq,
    exists_eq_left', List.map_append, List.map_cons, List.map_nil, walk_concat]
  refine and_congr_right fun hfile => ?_
  rw [hfile, move, List.append_left_inj, walk_eq_self_iff]

/-- A metric whose name starts with the parent directory. -/
def parentMetric : Metric := .ofFields "../x".toList 1 (.fin false 0 0) "k=v".toList

/-- **A name can leave the data directory.** -/
theorem not_directlyInside : ¬ ∀ (sys : Separators) (cwd : List Str) (cfg : Config Str)
    (m : Metric), Put m → DirectlyInside sys cwd cfg.dataDir (cfg.path m.name) := by
  intro h
  have hput : Put parentMetric := by
    refine put_of_mem_httpQueued (L := "../x 1 0 k=v".toList) ?_
    rw [Http.httpQueued_eq (by decide) (by decide)]
    decide
  obtain ⟨file, -, -, hres⟩ := h .posix [] ⟨"data".toList, "tsdb".toList, [], id⟩ parentMetric hput
  have hlen := congrArg List.length hres
  rw [List.length_append, List.length_singleton] at hlen
  exact absurd hlen (by decide)

end SimpleTSDB.Datastore

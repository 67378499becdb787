import SimpleTSDB.Config.Document
import SimpleTSDB.Datastore.Reports

/-!
# The settings of the kernel

The kernel reads its settings from the configuration, each with a default. The documented form has
one section, `stsdbd`, but the hostname is read from a section `stsdb`, so that the tags of the
internal metrics have the name of the machine whatever the document says (`settings_text`).
-/

namespace SimpleTSDB.Config

/-- The levels of the log. -/
inductive Level
  | critical | err | warn | debug | info
deriving DecidableEq

/-- The level of a name; an unknown one is `info`. -/
def setLevel (loglvl : Str) : Level :=
  if loglvl = "crit".toList then .critical
  else if loglvl = "error".toList then .err
  else if loglvl = "warn".toList then .warn
  else if loglvl = "debug".toList then .debug
  else .info

/-- What `Kernel` and its `Start` read. -/
structure Settings where
  logDir : Str
  dataDir : Str
  level : Level
  dbExt : Str
  hostname : Str
  bindAddress : Str
  telnetPort : Str
  httpPort : Str

/-- `Kernel` and its `Start`, in a release build, by what a name of a section is read as. -/
def settingsOf (get : Str → Str → Str → Str) (logdir datadir hostname : Str) : Settings where
  logDir := get "stsdbd".toList "logpath".toList logdir
  dataDir := get "stsdbd".toList "datapath".toList datadir
  level := setLevel (get "stsdbd".toList "loglevel".toList "info".toList)
  dbExt := get "stsdbd".toList "dbext".toList "tsdb".toList
  hostname := get "stsdb".toList "hostname".toList hostname
  bindAddress := get "stsdbd".toList "bind_address".toList "127.0.0.1".toList
  telnetPort := get "stsdbd".toList "telnet_port".toList "2181".toList
  httpPort := get "stsdbd".toList "http_port".toList "8080".toList

/-- The settings that are read from a file; `none` is one that cannot be opened. -/
def settings (file : Option Str) : Str → Str → Str → Settings := settingsOf (iniReader file).get

/-- The configuration of the datastore. -/
def Settings.datastore {F : Type*} (s : Settings) (resolve : Str → F) : Datastore.Config F where
  dataDir := s.dataDir
  dbExt := s.dbExt
  hostname := s.hostname
  resolve := resolve

namespace Document

/-- What a document says about a name of a section. -/
def get (d : Document) (sect name default : Str) : Str :=
  if valuesOf sect name d.entries = [] then default else joined (valuesOf sect name d.entries)

/-- All names of the document are in the documented section. -/
def IsDocumented (d : Document) : Prop := ∀ e ∈ d.entries, e.sect.map tolower = "stsdbd".toList

instance (d : Document) : Decidable d.IsDocumented := List.decidableBAll _ _

end Document

theorem get_of_isDocumented {d : Document} (h : d.IsDocumented) (name default : Str) :
    d.get "stsdb".toList name default = default := by
  have hnone : valuesOf "stsdb".toList name d.entries = [] := by
    rw [valuesOf, List.map_eq_nil_iff, List.filter_eq_nil_iff]
    intro e he
    rw [h e he]
    simp [tolower]
  rw [Document.get, if_pos hnone]

theorem tags_of_mem_reported {F : Type*} {cfg : Datastore.Config F} {as : List Datastore.Action}
    {m : Metric} (h : m ∈ Datastore.reported cfg as) : m.tags = "host=".toList ++ cfg.hostname := by
  obtain ⟨p, -, hm⟩ := List.mem_flatMap.mp h
  have htags (name : Str) (hname : name.length ≠ 0) (value : Double) :
      (Metric.ofFields name p.2 value ("host=".toList ++ cfg.hostname)).tags =
        "host=".toList ++ cfg.hostname := by
    rw [Metric.ofFields, if_neg]
    simp [hname]
  rw [Datastore.internalMetrics] at hm
  rcases List.mem_cons.mp hm with rfl | hm
  · exact htags _ (by decide) _
  rcases List.mem_cons.mp hm with rfl | hm
  · exact htags _ (by decide) _
  · obtain rfl := List.mem_singleton.mp hm
    exact htags _ (by decide) _

/-- The values that are read are those of the document. -/
theorem settings_eq {d : Document} (h : d.isWellFormed = true) (logdir datadir hostname : Str) :
    settings (some d.text) logdir datadir hostname =
      settingsOf d.get logdir datadir hostname := by
  have hget {sect : Str} (hsect : '=' ∉ sect) (name default : Str) :
      (iniReader (some d.text)).get sect name default = d.get sect name default :=
    get_iniReader_text h hsect name default
  have hdaemon := @hget "stsdbd".toList (by decide)
  have hhost := @hget "stsdb".toList (by decide)
  simp only [settings, settingsOf, hdaemon, hhost]

/-- **The settings are those of the document**, for every well-formed one. If it has the documented
form, the internal metrics have the name of the machine, in every run. -/
theorem settings_text (d : Document) (logdir datadir hostname : Str) (h : d.isWellFormed = true) :
    settings (some d.text) logdir datadir hostname = settingsOf d.get logdir datadir hostname ∧
      (d.IsDocumented → ∀ {F : Type} (resolve : Str → F) (as : List Datastore.Action),
        ∀ m ∈ Datastore.reported
            ((settings (some d.text) logdir datadir hostname).datastore resolve) as,
          m.tags = "host=".toList ++ hostname) := by
  rw [settings_eq h]
  refine ⟨rfl, fun hd F resolve as m hm => (tags_of_mem_reported hm).trans ?_⟩
  rw [Settings.datastore, settingsOf, get_of_isDocumented hd]

/-- A document that sets the hostname. -/
def hostDocument : Document :=
  [.comment [] '#' " SimpleTSDB configuration file".toList, .blank [],
    .heading "stsdbd".toList [], .blank " ".toList,
    .pair "hostname".toList " ".toList '=' " ".toList "tsdb".toList " ".toList
      (some " its name".toList),
    .pair "DataPath".toList [] '=' [] "/var/lib".toList " ".toList none,
    .more "  ".toList "tsdb".toList []]

theorem settings_text_example :
    (settings (some hostDocument.text) "/log".toList "/data".toList "host".toList).dataDir =
        "/var/lib\ntsdb".toList ∧
      ∀ m ∈ Datastore.reported ((settings (some hostDocument.text) "/log".toList "/data".toList
          "host".toList).datastore id) [.poll (some (⟨.nan, .nan, .nan⟩, 7))],
        m.tags = "host=host".toList := by
  obtain ⟨hsettings, hhost⟩ := settings_text hostDocument "/log".toList "/data".toList "host".toList
    (by decide)
  exact ⟨congrArg Settings.dataDir hsettings, hhost (by decide) id _⟩

end SimpleTSDB.Config

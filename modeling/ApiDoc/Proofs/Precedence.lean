import Mathlib.Data.List.Forall2
import ApiDoc.Config
import ApiDoc.Proofs.Words

/-!
# Which layer a setting comes from

What a layer gives for a setting is said by a relation for each layer that does not mention how the
configuration is put together: a file gives what it names, the environment what its variables say,
the command line what its flags say. `Highest` picks the value of the highest layer that gives one.
One step of the resolution takes the highest up to one layer to the highest up to the next one, so
the whole resolution gives each setting the value and the source of the highest layer, except for
the patterns to ignore, to which the command line adds.
-/

namespace ApiDoc

/-! ### Settings and their values -/

inductive Setting
  | title
  | visibility
  | markers
  | includeSource
  | defaultPackage
  | strictNames
  | sourcePaths
  | ignore
  | extensions
  | examplesDir
  | cacheDir
  | force
deriving DecidableEq

/-- What a value of the setting is. -/
abbrev Setting.Value : Setting → Type
  | .title => String
  | .visibility => List String
  | .markers => List String
  | .includeSource => Bool
  | .defaultPackage => String
  | .strictNames => Bool
  | .sourcePaths => List String
  | .ignore => List String
  | .extensions => List String
  | .examplesDir => Option String
  | .cacheDir => String
  | .force => Bool

/-- The setting in a configuration. -/
def Config.get (c : Config) : (s : Setting) → Layered s.Value
  | .title => c.title
  | .visibility => c.visibility
  | .markers => c.markers
  | .includeSource => c.includeSource
  | .defaultPackage => c.defaultPackage
  | .strictNames => c.strictNames
  | .sourcePaths => c.sourcePaths
  | .ignore => c.ignore
  | .extensions => c.extensions
  | .examplesDir => c.examplesDir
  | .cacheDir => c.cacheDir
  | .force => c.force

/-! ### Texts that hold values -/

/-- The items of a text: what stands between its commas, without blanks at the ends, where something
is left of it. -/
def ListedIn (text : String) (items : List String) : Prop :=
  ∃ parts : List (List Char), parts ≠ [] ∧ (∀ part ∈ parts, ',' ∉ part) ∧
    Text.joinWith [','] parts = text.toList ∧
    items = ((parts.map Text.trim).filter fun part => !part.isEmpty).map String.ofList

def truthWords : Bool → List String
  | true => ["1", "true", "yes", "on"]
  | false => ["0", "false", "no", "off", ""]

/-- The text is a word for the truth value, with blanks around it and in letters of any size. -/
def Says (text : String) (b : Bool) : Prop := Text.asciiLower (Text.trimmed text) ∈ truthWords b

instance (text : String) (b : Bool) : Decidable (Says text b) :=
  inferInstanceAs (Decidable (Text.asciiLower (Text.trimmed text) ∈ truthWords b))

/-- The items of a text are the ones that are read from it. -/
theorem listedIn_iff {text : String} {items : List String} :
    ListedIn text items ↔ Config.listItems text = items := by
  have hread (parts : List (List Char)) :
      ((parts.map Text.trim).filterMap fun part =>
        if part.isEmpty then none else some (String.ofList part)) =
      ((parts.map Text.trim).filter fun part => !part.isEmpty).map String.ofList := by
    generalize parts.map Text.trim = trimmed
    induction trimmed with
    | nil => rfl
    | cons part rest ih => cases part <;> simpa using ih
  rw [Config.listItems, Text.items, hread]
  constructor
  · rintro ⟨parts, hne, hplain, hjoin, rfl⟩
    have hsame : Text.splitOn ',' text.toList = parts := by
      refine Text.joinWith_inj (Text.splitOn_ne_nil ',' text.toList) hne ?_ hplain ?_
      · exact fun part hpart => Text.not_mem_of_mem_splitOn hpart
      · rw [Text.joinWith_splitOn, hjoin]
    rw [hsame]
  · rintro rfl
    refine ⟨Text.splitOn ',' text.toList, Text.splitOn_ne_nil ',' text.toList, ?_,
      Text.joinWith_splitOn ',' text.toList, rfl⟩
    exact fun part hpart => Text.not_mem_of_mem_splitOn hpart

theorem flatMap_listItems_iff {texts : List String} {items : List String} :
    (∃ lists, List.Forall₂ ListedIn texts lists ∧ items = lists.flatten) ↔
      texts.flatMap Config.listItems = items := by
  have hlists (lists : List (List String)) :
      List.Forall₂ ListedIn texts lists ↔ texts.map Config.listItems = lists := by
    rw [← List.forall₂_eq_eq_eq, List.forall₂_map_left_iff]
    exact ⟨fun h => h.imp fun _ _ => listedIn_iff.mp, fun h => h.imp fun _ _ => listedIn_iff.mpr⟩
  rw [List.flatMap_def]
  constructor
  · rintro ⟨lists, h, rfl⟩
    rw [(hlists lists).mp h]
  · rintro rfl
    exact ⟨_, (hlists _).mpr rfl, rfl⟩

theorem truth?_eq_ok_iff {name text : String} {b : Bool} :
    Config.truth? name text = .ok b ↔ Says text b := by
  have hapart (word : String) (h : word ∈ truthWords true) : word ∉ truthWords false := by
    simp only [truthWords, List.mem_cons, List.not_mem_nil, or_false] at h
    rcases h with rfl | rfl | rfl | rfl <;> decide
  rw [Config.truth?, Says]
  generalize Text.asciiLower (Text.trimmed text) = word
  have hwords (b : Bool) : (truthWords b).contains word = true ↔ word ∈ truthWords b :=
    List.contains_iff_mem
  by_cases htrue : word ∈ truthWords true
  · rw [show ["1", "true", "yes", "on"] = truthWords true from rfl, (hwords true).mpr htrue]
    cases b <;> simp [htrue, hapart word htrue]
  · rw [show ["1", "true", "yes", "on"] = truthWords true from rfl,
      show ["0", "false", "no", "off", ""] = truthWords false from rfl,
      if_neg (mt (hwords true).mp htrue)]
    by_cases hfalse : word ∈ truthWords false
    · rw [if_pos ((hwords false).mpr hfalse)]
      cases b <;> simp [htrue, hfalse]
    · rw [if_neg (mt (hwords false).mp hfalse)]
      cases b <;> simp [htrue, hfalse]

/-! ### What the layers give -/

def Setting.default : (s : Setting) → s.Value
  | .title => "API Documentation"
  | .visibility => ["public", "protected", "private"]
  | .markers => ["TODO", "FIXME"]
  | .includeSource => false
  | .defaultPackage => "Default"
  | .strictNames => false
  | .sourcePaths => ["."]
  | .ignore => []
  | .extensions => ["php"]
  | .examplesDir => none
  | .cacheDir => ".docblox"
  | .force => false

inductive ConfigFile.Gives (f : ConfigFile) : (s : Setting) → s.Value → Prop
  | title {v : String} (h : f.title = some v) : f.Gives .title v
  | visibility {v : List String} (h : f.visibility = some v) : f.Gives .visibility v
  | markers {v : List String} (h : f.markers = some v) : f.Gives .markers v
  | includeSource {v : Bool} (h : f.includeSource = some v) : f.Gives .includeSource v
  | defaultPackage {v : String} (h : f.defaultPackage = some v) : f.Gives .defaultPackage v
  | strictNames {v : Bool} (h : f.strictNames = some v) : f.Gives .strictNames v
  | sourcePaths {v : List String} (h : f.sourcePaths = some v) : f.Gives .sourcePaths v
  | ignore {v : List String} (h : f.ignore = some v) : f.Gives .ignore v
  | extensions {v : List String} (h : f.extensions = some v) : f.Gives .extensions v
  | examplesDir {v : String} (h : f.examplesDir = some v) : f.Gives .examplesDir (some v)
  | cacheDir {v : String} (h : f.cacheDir = some v) : f.Gives .cacheDir v

inductive Config.Environment.Gives (env : Config.Environment) : (s : Setting) → s.Value → Prop
  | title {v : String} (h : env.get? "DOCBLOX_TITLE" = some v) : Gives env .title v
  | visibility {text : String} {v : List String} (h : env.get? "DOCBLOX_VISIBILITY" = some text)
      (items : ListedIn text v) : Gives env .visibility v
  | markers {text : String} {v : List String} (h : env.get? "DOCBLOX_MARKERS" = some text)
      (items : ListedIn text v) : Gives env .markers v
  | includeSource {text : String} {v : Bool} (h : env.get? "DOCBLOX_INCLUDE_SOURCE" = some text)
      (word : Says text v) : Gives env .includeSource v
  | cacheDir {v : String} (h : env.get? "DOCBLOX_CACHE_DIR" = some v) : Gives env .cacheDir v
  | force {text : String} {v : Bool} (h : env.get? "DOCBLOX_FORCE" = some text)
      (word : Says text v) : Gives env .force v

/-- What the command line gives in place of the layers below: flags that are set, and lists that are
not empty. -/
inductive Overrides.Gives (o : Overrides) : (s : Setting) → s.Value → Prop
  | title {v : String} (h : o.title = some v) : o.Gives .title v
  | visibility {lists : List (List String)} (h : o.visibility ≠ [])
      (items : List.Forall₂ ListedIn o.visibility lists) : o.Gives .visibility lists.flatten
  | includeSource (h : o.includeSource = true) : o.Gives .includeSource true
  | strictNames (h : o.strictNames = true) : o.Gives .strictNames true
  | sourcePaths (h : o.sourcePaths ≠ []) : o.Gives .sourcePaths o.sourcePaths
  | cacheDir {v : String} (h : o.cacheDir = some v) : o.Gives .cacheDir v
  | force (h : o.force = true) : o.Gives .force true

def Layer.Gives (file : Option ConfigFile) (env : Config.Environment) (o : Overrides)
    (s : Setting) : Layer → s.Value → Prop
  | .default, v => v = s.default
  | .file, v => ∃ f, file = some f ∧ f.Gives s v
  | .environment, v => Config.Environment.Gives env s v
  | .commandLine, v => o.Gives s v

/-! ### What is read from the layers -/

def ConfigFile.value? (f : ConfigFile) : (s : Setting) → Option s.Value
  | .title => f.title
  | .visibility => f.visibility
  | .markers => f.markers
  | .includeSource => f.includeSource
  | .defaultPackage => f.defaultPackage
  | .strictNames => f.strictNames
  | .sourcePaths => f.sourcePaths
  | .ignore => f.ignore
  | .extensions => f.extensions
  | .examplesDir => f.examplesDir.map some
  | .cacheDir => f.cacheDir
  | .force => none

theorem ConfigFile.gives_iff {f : ConfigFile} {s : Setting} {v : s.Value} :
    f.Gives s v ↔ f.value? s = some v := by
  constructor
  · rintro (h | h | h | h | h | h | h | h | h | h | h)
    all_goals first | exact h | exact Option.map_eq_some_iff.mpr ⟨_, h, rfl⟩
  · intro h
    cases s with
    | title => exact .title h
    | visibility => exact .visibility h
    | markers => exact .markers h
    | includeSource => exact .includeSource h
    | defaultPackage => exact .defaultPackage h
    | strictNames => exact .strictNames h
    | sourcePaths => exact .sourcePaths h
    | ignore => exact .ignore h
    | extensions => exact .extensions h
    | examplesDir =>
      obtain ⟨dir, hdir, rfl⟩ := Option.map_eq_some_iff.mp h
      exact .examplesDir hdir
    | cacheDir => exact .cacheDir h
    | force => cases h

/-- What the environment holds for a setting, with the truth values it holds. -/
def Config.Environment.value? (env : Config.Environment) (includeSource force : Option Bool) :
    (s : Setting) → Option s.Value
  | .title => env.get? "DOCBLOX_TITLE"
  | .visibility => (env.get? "DOCBLOX_VISIBILITY").map Config.listItems
  | .markers => (env.get? "DOCBLOX_MARKERS").map Config.listItems
  | .includeSource => includeSource
  | .cacheDir => env.get? "DOCBLOX_CACHE_DIR"
  | .force => force
  | _ => none

theorem Config.Environment.gives_iff {env : Config.Environment} {includeSource force : Option Bool}
    (hsource : ∀ b, includeSource = some b ↔
      ∃ text, env.get? "DOCBLOX_INCLUDE_SOURCE" = some text ∧ Says text b)
    (hforce : ∀ b, force = some b ↔ ∃ text, env.get? "DOCBLOX_FORCE" = some text ∧ Says text b)
    {s : Setting} {v : s.Value} : Gives env s v ↔ value? env includeSource force s = some v := by
  constructor
  · intro h
    cases h with
    | title h => exact h
    | visibility h items => exact Option.map_eq_some_iff.mpr ⟨_, h, listedIn_iff.mp items⟩
    | markers h items => exact Option.map_eq_some_iff.mpr ⟨_, h, listedIn_iff.mp items⟩
    | includeSource h word => exact (hsource _).mpr ⟨_, h, word⟩
    | cacheDir h => exact h
    | force h word => exact (hforce _).mpr ⟨_, h, word⟩
  · intro h
    cases s with
    | title => exact .title h
    | visibility =>
      obtain ⟨text, htext, hitems⟩ := Option.map_eq_some_iff.mp h
      exact .visibility htext (listedIn_iff.mpr hitems)
    | markers =>
      obtain ⟨text, htext, hitems⟩ := Option.map_eq_some_iff.mp h
      exact .markers htext (listedIn_iff.mpr hitems)
    | includeSource =>
      obtain ⟨text, htext, hword⟩ := (hsource v).mp h
      exact .includeSource htext hword
    | cacheDir => exact .cacheDir h
    | force =>
      obtain ⟨text, htext, hword⟩ := (hforce v).mp h
      exact .force htext hword
    | defaultPackage | strictNames | sourcePaths | ignore | extensions | examplesDir => cases h

/-- What the command line holds for a setting in place of the layers below. -/
def Overrides.value? (o : Overrides) : (s : Setting) → Option s.Value
  | .title => o.title
  | .visibility => (Config.nonempty? o.visibility).map (·.flatMap Config.listItems)
  | .includeSource => Config.flag? o.includeSource
  | .strictNames => Config.flag? o.strictNames
  | .sourcePaths => Config.nonempty? o.sourcePaths
  | .cacheDir => o.cacheDir
  | .force => Config.flag? o.force
  | _ => none

theorem Config.nonempty?_eq_some_iff {α : Type} {items given : List α} :
    nonempty? items = some given ↔ items ≠ [] ∧ items = given := by
  rw [nonempty?]
  cases items <;> simp

theorem Config.flag?_eq_some_iff {b given : Bool} :
    flag? b = some given ↔ b = true ∧ given = true := by
  cases b <;> cases given <;> simp [flag?]

theorem Overrides.gives_iff {o : Overrides} {s : Setting} {v : s.Value} :
    o.Gives s v ↔ o.value? s = some v := by
  constructor
  · intro h
    cases h with
    | title h => exact h
    | visibility h items =>
      refine Option.map_eq_some_iff.mpr ⟨_, Config.nonempty?_eq_some_iff.mpr ⟨h, rfl⟩, ?_⟩
      exact flatMap_listItems_iff.mp ⟨_, items, rfl⟩
    | includeSource h => exact Config.flag?_eq_some_iff.mpr ⟨h, rfl⟩
    | strictNames h => exact Config.flag?_eq_some_iff.mpr ⟨h, rfl⟩
    | sourcePaths h => exact Config.nonempty?_eq_some_iff.mpr ⟨h, rfl⟩
    | cacheDir h => exact h
    | force h => exact Config.flag?_eq_some_iff.mpr ⟨h, rfl⟩
  · intro h
    cases s with
    | title => exact .title h
    | visibility =>
      obtain ⟨words, hwords, hitems⟩ := Option.map_eq_some_iff.mp h
      obtain ⟨hne, rfl⟩ := Config.nonempty?_eq_some_iff.mp hwords
      obtain ⟨lists, hlists, rfl⟩ := flatMap_listItems_iff.mpr hitems
      exact .visibility hne hlists
    | includeSource =>
      obtain ⟨hset, rfl⟩ := Config.flag?_eq_some_iff.mp h
      exact .includeSource hset
    | strictNames =>
      obtain ⟨hset, rfl⟩ := Config.flag?_eq_some_iff.mp h
      exact .strictNames hset
    | sourcePaths =>
      obtain ⟨hne, rfl⟩ := Config.nonempty?_eq_some_iff.mp h
      exact .sourcePaths hne
    | cacheDir => exact .cacheDir h
    | force =>
      obtain ⟨hset, rfl⟩ := Config.flag?_eq_some_iff.mp h
      exact .force hset
    | markers | defaultPackage | ignore | extensions | examplesDir => cases h

/-! ### The highest layer -/

theorem Layer.eq_of_rank_eq {l m : Layer} (h : l.rank = m.rank) : l = m := by
  cases l <;> cases m <;> first | rfl | simp [rank] at h

theorem Layered.provide_some {α : Type} (x : Layered α) {l : Layer} (h : x.source.rank ≤ l.rank)
    {v : α} : x.provide l (some v) = ⟨v, l⟩ := by
  rw [provide, merge, if_pos h]

/-- The value is what the highest layer gives, of those up to a bound that give one. -/
structure Highest {α : Type} (gives : Layer → α → Prop) (bound : Layer) (x : Layered α) : Prop where
  below : x.source.rank ≤ bound.rank
  given : gives x.source x.value
  silent : ∀ l : Layer, x.source.rank < l.rank → l.rank ≤ bound.rank → ∀ v, ¬ gives l v

namespace Highest

variable {α : Type} {gives : Layer → α → Prop}

theorem default {v : α} (h : gives .default v) : Highest gives .default ⟨v, .default⟩ where
  below := le_rfl
  given := h
  silent _ hlt hle := absurd hlt (Nat.not_lt.mpr hle)

/-- One step: the highest up to a layer leads to the highest up to the next one. -/
theorem provide {low high : Layer} {x : Layered α} (h : Highest gives low x)
    (hnext : high.rank = low.rank + 1) {given : Option α}
    (hgiven : ∀ v, gives high v ↔ given = some v) :
    Highest gives high (x.provide high given) := by
  have hbelow := h.below
  cases given with
  | none =>
    refine ⟨by rw [Layered.provide]; omega, h.given, fun l hlt hle v hv => ?_⟩
    rcases Nat.lt_or_ge low.rank l.rank with hover | hunder
    · obtain rfl : l = high := Layer.eq_of_rank_eq (by omega)
      exact absurd ((hgiven v).mp hv) (by simp)
    · exact h.silent l hlt hunder v hv
  | some v =>
    rw [x.provide_some (show x.source.rank ≤ high.rank by omega)]
    exact ⟨le_rfl, (hgiven v).mpr rfl, fun l hlt hle => absurd hlt (Nat.not_lt.mpr hle)⟩

end Highest

/-! ### The configuration of all layers -/

/-- The truth values of the environment are words for truth values. -/
def Config.Environment.Legible (env : Config.Environment) : Prop :=
  ∀ name ∈ ["DOCBLOX_INCLUDE_SOURCE", "DOCBLOX_FORCE"], ∀ text, env.get? name = some text →
    ∃ b, Says text b

/-- Every setting has the value and the source of the highest layer that gives it. The patterns to
ignore have those of the highest layer below the command line, with the ones of the command line, if
there are any, behind them. -/
structure Config.Resolves (file : Option ConfigFile) (env : Config.Environment) (o : Overrides)
    (c : Config) : Prop where
  highest : ∀ s, s ≠ .ignore → Highest (Layer.Gives file env o s) .commandLine (c.get s)
  ignore : ∃ below, Highest (Layer.Gives file env o .ignore) .environment below ∧
    c.ignore = if o.ignore = [] then below else ⟨below.value ++ o.ignore, .commandLine⟩

namespace Config

/-- The truth value of a variable that holds a word for one. -/
theorem exists_truthOf {env : Environment} {name : String}
    (h : ∀ text, env.get? name = some text → ∃ b, Says text b) :
    ∃ given, truthOf env name = .ok given ∧
      ∀ b, given = some b ↔ ∃ text, env.get? name = some text ∧ Says text b := by
  rw [truthOf]
  cases hget : env.get? name with
  | none => exact ⟨none, rfl, by simp⟩
  | some text =>
    obtain ⟨b, hb⟩ := h text hget
    have hread : truth? name text = .ok b := truth?_eq_ok_iff.mpr hb
    refine ⟨some b, congrArg (Except.map some) hread, fun b' => ?_⟩
    rw [Option.some_inj]
    constructor
    · rintro rfl
      exact ⟨text, rfl, hb⟩
    · rintro ⟨_, htext, hb'⟩
      obtain rfl := Option.some.inj htext
      exact Except.ok.inj (hread.symm.trans (truth?_eq_ok_iff.mpr hb'))

/-- The value of a setting below the command line. -/
def belowCommandLine (file : Option ConfigFile) (env : Environment)
    (includeSource force : Option Bool) (s : Setting) : Layered s.Value :=
  ((⟨s.default, .default⟩ : Layered s.Value).provide .file (file.bind fun f => f.value? s)).provide
    .environment (Environment.value? env includeSource force s)

/-- The resolution goes through the layers setting by setting. -/
theorem exists_ofLayers (file : Option ConfigFile) {env : Environment} (o : Overrides)
    {includeSource force : Option Bool}
    (hsource : truthOf env "DOCBLOX_INCLUDE_SOURCE" = .ok includeSource)
    (hforce : truthOf env "DOCBLOX_FORCE" = .ok force) :
    ∃ c, ofLayers file env o = .ok c ∧
      (∀ s, s ≠ .ignore → c.get s =
        (belowCommandLine file env includeSource force s).provide .commandLine (o.value? s)) ∧
      c.ignore = (belowCommandLine file env includeSource force .ignore).provide .commandLine
        ((nonempty? o.ignore).map
          ((belowCommandLine file env includeSource force .ignore).value ++ ·)) := by
  cases file with
  | none =>
    refine ⟨_, by unfold ofLayers applyEnvironment; rw [hsource, hforce]; rfl, fun s hs => ?_, rfl⟩
    cases s <;> first | rfl | exact absurd rfl hs
  | some f =>
    refine ⟨_, by unfold ofLayers applyEnvironment; rw [hsource, hforce]; rfl, fun s hs => ?_, rfl⟩
    cases s <;> first | rfl | exact absurd rfl hs

theorem highest_belowCommandLine (file : Option ConfigFile) {env : Environment} (o : Overrides)
    {includeSource force : Option Bool}
    (hsource : ∀ b, includeSource = some b ↔
      ∃ text, env.get? "DOCBLOX_INCLUDE_SOURCE" = some text ∧ Says text b)
    (hforce : ∀ b, force = some b ↔ ∃ text, env.get? "DOCBLOX_FORCE" = some text ∧ Says text b)
    (s : Setting) : Highest (Layer.Gives file env o s) .environment
      (belowCommandLine file env includeSource force s) := by
  have hdefault : Highest (Layer.Gives file env o s) .default ⟨s.default, .default⟩ := .default rfl
  have hfile (v : s.Value) : Layer.Gives file env o s .file v ↔
      (file.bind fun f => f.value? s) = some v := by
    rw [Option.bind_eq_some_iff, Layer.Gives]
    simp only [ConfigFile.gives_iff]
  exact (hdefault.provide rfl hfile).provide rfl fun v => Environment.gives_iff hsource hforce

/-- Where the truth values of the environment can be read, the resolution goes well and gives each
setting what the highest layer gives. -/
theorem exists_resolves (file : Option ConfigFile) {env : Environment} (o : Overrides)
    (h : env.Legible) :
    ∃ c, ofLayers file env o = .ok c ∧ c.Resolves file env o := by
  obtain ⟨includeSource, hsource, hsourceGives⟩ :=
    exists_truthOf (h "DOCBLOX_INCLUDE_SOURCE" (by simp))
  obtain ⟨force, hforce, hforceGives⟩ := exists_truthOf (h "DOCBLOX_FORCE" (by simp))
  obtain ⟨c, hc, hget, hignore⟩ := exists_ofLayers file o hsource hforce
  have hbelow := highest_belowCommandLine file o hsourceGives hforceGives
  refine ⟨c, hc, fun s hs => ?_, _, hbelow .ignore, ?_⟩
  · rw [hget s hs]
    exact (hbelow s).provide rfl fun v => Overrides.gives_iff
  · rw [hignore]
    split
    · next hempty =>
      rw [hempty]
      rfl
    · next hne =>
      have hlayer := (hbelow .ignore).below
      rw [nonempty?_eq_some_iff.mpr ⟨hne, rfl⟩, Option.map_some]
      exact Layered.provide_some _ (hlayer.trans (by decide))

end Config

/-! ### Settings -/

namespace VisibilityFilter

/-- A word for one of the flags. -/
def Known (word : String) : Prop := keyword word ∈ keywords.map Prod.fst

theorem or_and_distrib (a b c : UInt8) : (a ||| b) &&& c = (a &&& c) ||| (b &&& c) := by
  refine UInt8.eq_of_toBitVec_eq ?_
  ext i hi
  simp [Bool.and_or_distrib_right]

theorem and_or_self (a b : UInt8) : (a &&& b) ||| b = b := by
  refine UInt8.eq_of_toBitVec_eq ?_
  ext i hi
  simp

/-- One flag more. -/
theorem has_or (f : VisibilityFilter) {k other : String × UInt8} (hk : k ∈ keywords)
    (hother : other ∈ keywords) :
    (VisibilityFilter.mk (f.bits ||| other.2)).has k.2 = true ↔
      f.has k.2 = true ∨ other.1 = k.1 := by
  have hapart : ∀ k ∈ keywords, ∀ other ∈ keywords,
      other.2 &&& k.2 = if other.1 = k.1 then k.2 else 0 := by decide
  rw [has, has, or_and_distrib, hapart k hk other hother]
  split
  · next hsame => simp [and_or_self, hsame]
  · next hne => simp [hne]

/-- The filter with the flag of one word more. -/
def addWord (f : VisibilityFilter) (word : String) : Except String VisibilityFilter :=
  match keywords.find? fun k => k.1 = keyword word with
  | some k => .ok ⟨f.bits ||| k.2⟩
  | none => .error (keyword word)

theorem parse_eq (words : List String) : parse words = words.foldlM addWord ⟨0⟩ := by
  unfold parse
  refine congrArg (List.foldlM · (VisibilityFilter.mk 0) words) ?_
  funext f word
  unfold addWord
  generalize keywords.find? (fun k => k.1 = keyword word) = found
  cases found with
  | none => rfl
  | some k => rfl

theorem addWord_of_mem (f : VisibilityFilter) {word : String} {k : String × UInt8}
    (hk : k ∈ keywords) (heq : keyword word = k.1) : addWord f word = .ok ⟨f.bits ||| k.2⟩ := by
  have hunique : ∀ k ∈ keywords, keywords.find? (fun other => other.1 = k.1) = some k := by decide
  rw [addWord, heq, hunique k hk]

theorem addWord_of_not_known (f : VisibilityFilter) {word : String} (h : ¬ Known word) :
    addWord f word = .error (keyword word) := by
  have hnone : keywords.find? (fun k => k.1 = keyword word) = none := by
    rw [List.find?_eq_none]
    exact fun k hk heq => h (List.mem_map.mpr ⟨k, hk, by simpa using heq⟩)
  rw [addWord, hnone]

/-- Words are read if they are known, and add their flags to the ones that were there. -/
theorem foldlM_addWord (words : List String) (f : VisibilityFilter) :
    ((∃ g, words.foldlM addWord f = .ok g) ↔ ∀ word ∈ words, Known word) ∧
      ∀ g, words.foldlM addWord f = .ok g → ∀ k ∈ keywords,
        (g.has k.2 = true ↔ f.has k.2 = true ∨ ∃ word ∈ words, keyword word = k.1) := by
  induction words generalizing f with
  | nil =>
    refine ⟨⟨fun _ _ h => absurd h List.not_mem_nil, fun _ => ⟨f, rfl⟩⟩, fun g hg k _ => ?_⟩
    obtain rfl : f = g := Except.ok.inj hg
    simp
  | cons word rest ih =>
    rw [List.foldlM_cons, List.forall_mem_cons]
    by_cases hword : Known word
    · obtain ⟨k, hk, heq⟩ := List.mem_map.mp hword
      rw [addWord_of_mem f hk heq.symm]
      obtain ⟨hread, hflags⟩ := ih ⟨f.bits ||| k.2⟩
      refine ⟨hread.trans (by simp [hword]), fun g hg other hother => ?_⟩
      rw [hflags g hg other hother, has_or f hother hk, or_assoc, List.exists_mem_cons_iff, heq]
    · rw [addWord_of_not_known f hword]
      refine ⟨⟨fun ⟨g, hg⟩ => ?_, fun hall => absurd hall.1 hword⟩, fun g hg => ?_⟩
      · cases hg
      · cases hg

/-- A filter can be read if all its words are known, and has exactly their flags. -/
theorem parse_spec (words : List String) :
    ((∃ f, parse words = .ok f) ↔ ∀ word ∈ words, Known word) ∧
      ∀ f, parse words = .ok f → ∀ k ∈ keywords,
        (f.has k.2 = true ↔ ∃ word ∈ words, keyword word = k.1) := by
  obtain ⟨hread, hflags⟩ := foldlM_addWord words ⟨0⟩
  rw [← parse_eq] at hread hflags
  refine ⟨hread, fun f hf k hk => (hflags f hf k hk).trans (or_iff_right ?_)⟩
  have hnone : ∀ k ∈ keywords, ¬ (VisibilityFilter.mk 0).has k.2 = true := by decide
  exact hnone k hk

end VisibilityFilter

/-! ### Patterns -/

/-- A pattern that can be read and is not nested too deep. -/
def Glob.Usable (pattern : String) : Prop :=
  ∃ glob, Glob.parse pattern = .ok glob ∧ glob.isTooDeep = false

/-- One pattern as it is read from a list. -/
def readPattern (pattern : String) : Except ConfigError Glob :=
  match Glob.parse pattern with
  | .ok glob => .ok glob
  | .error e => .error (.invalidPattern pattern e)

theorem readPattern_eq_ok_iff {pattern : String} {glob : Glob} :
    readPattern pattern = .ok glob ↔ Glob.parse pattern = .ok glob := by
  rw [readPattern]
  split
  · next found hfound => rw [hfound, Except.ok.injEq, Except.ok.injEq]
  · next e he => simp [he]

/-- What is read from a list of patterns. -/
theorem mapM_readPattern (patterns : List String) (globs : List Glob) :
    patterns.mapM readPattern = .ok globs ↔
      List.Forall₂ (fun p glob => Glob.parse p = .ok glob) patterns globs := by
  induction patterns generalizing globs with
  | nil =>
    rw [List.mapM_nil, List.forall₂_nil_left_iff]
    exact ⟨fun h => (Except.ok.inj h).symm, fun h => h ▸ rfl⟩
  | cons p rest ih =>
    rw [List.mapM_cons, List.forall₂_cons_left_iff]
    constructor
    · intro h
      cases hglob : readPattern p with
      | error e => rw [hglob] at h; cases h
      | ok glob =>
        cases hrest : rest.mapM readPattern with
        | error e => rw [hglob, hrest] at h; cases h
        | ok others =>
          rw [hglob, hrest] at h
          obtain rfl := Except.ok.inj h
          exact ⟨glob, others, readPattern_eq_ok_iff.mp hglob, (ih others).mp hrest, rfl⟩
    · rintro ⟨glob, others, hglob, hrest, rfl⟩
      rw [readPattern_eq_ok_iff.mpr hglob, (ih others).mpr hrest]
      rfl

theorem usable_of_forall₂ {patterns : List String} {globs : List Glob}
    (h : List.Forall₂ (fun p glob => Glob.parse p = .ok glob) patterns globs)
    (hdeep : ∀ glob ∈ globs, glob.isTooDeep = false) : ∀ p ∈ patterns, Glob.Usable p := by
  induction h with
  | nil => simp
  | cons hparse _ ih =>
    obtain ⟨hhead, hrest⟩ := List.forall_mem_cons.mp hdeep
    exact List.forall_mem_cons.mpr ⟨⟨_, hparse, hhead⟩, ih hrest⟩

theorem exists_forall₂_of_usable {patterns : List String} (h : ∀ p ∈ patterns, Glob.Usable p) :
    ∃ globs, List.Forall₂ (fun p glob => Glob.parse p = .ok glob) patterns globs ∧
      ∀ glob ∈ globs, glob.isTooDeep = false := by
  induction patterns with
  | nil => exact ⟨[], .nil, by simp⟩
  | cons p rest ih =>
    obtain ⟨⟨glob, hparse, hdeep⟩, hrest⟩ := List.forall_mem_cons.mp h
    obtain ⟨globs, hglobs, hall⟩ := ih hrest
    exact ⟨glob :: globs, .cons hparse hglobs, List.forall_mem_cons.mpr ⟨hdeep, hall⟩⟩

/-- Patterns can be used if each of them can. -/
theorem exists_parsePatterns_iff (patterns : List String) :
    (∃ globs, parsePatterns patterns = .ok globs) ↔ ∀ p ∈ patterns, Glob.Usable p := by
  have heq : parsePatterns patterns = (patterns.mapM readPattern).bind fun globs =>
      if globs.any Glob.isTooDeep then .error (.invalidPattern "<combined>" .nestedTooDeep)
      else .ok globs := rfl
  have hdeep (globs : List Glob) :
      globs.any Glob.isTooDeep = false ↔ ∀ glob ∈ globs, glob.isTooDeep = false := by
    simp [List.any_eq_false]
  rw [heq]
  constructor
  · rintro ⟨globs, h⟩
    cases hglobs : patterns.mapM readPattern with
    | error e => rw [hglobs] at h; cases h
    | ok found =>
      rw [hglobs, Except.bind] at h
      cases hany : found.any Glob.isTooDeep with
      | true => rw [hany, if_pos rfl] at h; cases h
      | false =>
        have hread := (mapM_readPattern patterns found).mp hglobs
        exact usable_of_forall₂ hread ((hdeep found).mp hany)
  · intro h
    obtain ⟨globs, hglobs, hall⟩ := exists_forall₂_of_usable h
    refine ⟨globs, ?_⟩
    rw [(mapM_readPattern patterns globs).mpr hglobs, Except.bind, (hdeep globs).mpr hall]
    rfl

/-! ### Configurations and settings -/

/-- The settings have the values of a configuration, and show what its words say. -/
structure Settings.Carries (settings : Settings) (c : Config) : Prop where
  values : settings =
    { title := c.title.value
      visibility := settings.visibility
      markers := c.markers.value
      includeSource := c.includeSource.value
      defaultPackage := c.defaultPackage.value
      strictNames := c.strictNames.value
      sourcePaths := c.sourcePaths.value
      ignore := c.ignore.value
      extensions := c.extensions.value
      examplesDir := c.examplesDir.value
      cacheDir := c.cacheDir.value
      force := c.force.value }
  flags : ∀ k ∈ VisibilityFilter.keywords, (settings.visibility.has k.2 = true ↔
    ∃ word ∈ c.visibility.value, VisibilityFilter.keyword word = k.1)

namespace Config

theorem toSettings_of_unknown {c : Config} {word : String}
    (h : VisibilityFilter.parse c.visibility.value = .error word) :
    c.toSettings = .error (.unknownVisibility word) := by
  rw [toSettings, h]
  rfl

/-- With known words, the patterns decide. -/
theorem toSettings_of_known {c : Config} {filter : VisibilityFilter}
    (h : VisibilityFilter.parse c.visibility.value = .ok filter) : c.toSettings =
      (parsePatterns c.ignore.value).map fun _ =>
        { title := c.title.value
          visibility := filter
          markers := c.markers.value
          includeSource := c.includeSource.value
          defaultPackage := c.defaultPackage.value
          strictNames := c.strictNames.value
          sourcePaths := c.sourcePaths.value
          ignore := c.ignore.value
          extensions := c.extensions.value
          examplesDir := c.examplesDir.value
          cacheDir := c.cacheDir.value
          force := c.force.value } := by
  rw [toSettings, h]
  simp only [Settings.ignored, bind, Except.bind, pure, Except.pure]
  cases parsePatterns c.ignore.value <;> rfl

/-- A configuration has settings if its words are known and its patterns can be used. -/
theorem exists_toSettings_iff (c : Config) : (∃ settings, c.toSettings = .ok settings) ↔
    (∀ word ∈ c.visibility.value, VisibilityFilter.Known word) ∧
      ∀ p ∈ c.ignore.value, Glob.Usable p := by
  rw [← (VisibilityFilter.parse_spec c.visibility.value).1, ← exists_parsePatterns_iff]
  cases hfilter : VisibilityFilter.parse c.visibility.value with
  | error word => simp [toSettings_of_unknown hfilter]
  | ok filter =>
    rw [toSettings_of_known hfilter]
    cases parsePatterns c.ignore.value <;> simp [Except.map]

theorem carries_of_toSettings {c : Config} {settings : Settings} (h : c.toSettings = .ok settings) :
    settings.Carries c := by
  cases hfilter : VisibilityFilter.parse c.visibility.value with
  | error word =>
    rw [toSettings_of_unknown hfilter] at h
    cases h
  | ok filter =>
    rw [toSettings_of_known hfilter] at h
    cases hglobs : parsePatterns c.ignore.value with
    | error e =>
      rw [hglobs] at h
      cases h
    | ok globs =>
      rw [hglobs] at h
      obtain rfl := Except.ok.inj h
      exact ⟨rfl, (VisibilityFilter.parse_spec c.visibility.value).2 filter hfilter⟩

/-- Where the truth values of the environment can be read, the resolution of all layers gives each
setting the value and the source of the highest layer that gives it, with the patterns to ignore of
the command line behind those of the layers below. It has settings, which carry its values, unless a
word for a visibility is unknown or a pattern to ignore cannot be used. -/
theorem resolves_ofLayers (file : Option ConfigFile) {env : Environment} (o : Overrides)
    (h : env.Legible) : ∃ c, ofLayers file env o = .ok c ∧ c.Resolves file env o ∧
      ((∃ e, c.toSettings = .error e) ↔
        (∃ word ∈ c.visibility.value, ¬ VisibilityFilter.Known word) ∨
          ∃ p ∈ c.ignore.value, ¬ Glob.Usable p) ∧
      ∀ settings, c.toSettings = .ok settings → settings.Carries c := by
  obtain ⟨c, hc, hresolves⟩ := exists_resolves file o h
  refine ⟨c, hc, hresolves, ?_, fun settings hsettings => carries_of_toSettings hsettings⟩
  have hfails : (∃ e, c.toSettings = .error e) ↔ ¬ ∃ settings, c.toSettings = .ok settings := by
    cases c.toSettings <;> simp
  rw [hfails, exists_toSettings_iff, not_and_or]
  simp only [not_forall, exists_prop]

/-- A file, variables and flags that give some settings more than once. -/
def sampleFile : ConfigFile :=
  { title := some "From file", markers := some ["HACK"], ignore := some ["build/*"] }

def sampleEnvironment : Environment :=
  .ofList [("DOCBLOX_TITLE", "From environment"), ("DOCBLOX_FORCE", " Yes "),
    ("DOCBLOX_VISIBILITY", "public, ,Internal,")]

def sampleOverrides : Overrides := { title := some "From flag", ignore := ["*.tmp"] }

theorem legible_sampleEnvironment : sampleEnvironment.Legible := by
  intro name hname text htext
  simp only [List.mem_cons, List.not_mem_nil, or_false] at hname
  rcases hname with rfl | rfl
  · have hnone : sampleEnvironment.get? "DOCBLOX_INCLUDE_SOURCE" = none := by decide
    rw [hnone] at htext
    cases htext
  · have hsome : sampleEnvironment.get? "DOCBLOX_FORCE" = some " Yes " := by decide
    rw [hsome] at htext
    obtain rfl := Option.some.inj htext
    exact ⟨true, by decide⟩

def sampleConfig : Config where
  title := ⟨"From flag", .commandLine⟩
  visibility := ⟨["public", "Internal"], .environment⟩
  markers := ⟨["HACK"], .file⟩
  includeSource := ⟨false, .default⟩
  defaultPackage := ⟨"Default", .default⟩
  strictNames := ⟨false, .default⟩
  sourcePaths := ⟨["."], .default⟩
  ignore := ⟨["build/*", "*.tmp"], .commandLine⟩
  extensions := ⟨["php"], .default⟩
  examplesDir := ⟨none, .default⟩
  cacheDir := ⟨".docblox", .default⟩
  force := ⟨true, .environment⟩

/-- The sample takes values from all layers, and its settings carry them. -/
theorem resolves_ofLayers_sample : sampleEnvironment.Legible ∧
    ofLayers (some sampleFile) sampleEnvironment sampleOverrides = .ok sampleConfig ∧
      sampleConfig.Resolves (some sampleFile) sampleEnvironment sampleOverrides ∧
      ∃ settings, sampleConfig.toSettings = .ok settings ∧ settings.Carries sampleConfig := by
  obtain ⟨c, hc, hresolves, -, hcarries⟩ :=
    resolves_ofLayers (some sampleFile) sampleOverrides legible_sampleEnvironment
  have hvalues : (ofLayers (some sampleFile) sampleEnvironment sampleOverrides).toOption =
      some sampleConfig := by
    decide +kernel
  have hsettings : sampleConfig.toSettings.toOption.isSome = true := by
    decide +kernel
  rw [hc] at hvalues
  obtain rfl : c = sampleConfig := Option.some.inj hvalues
  obtain ⟨settings, hok⟩ : ∃ settings, sampleConfig.toSettings = .ok settings := by
    cases hread : sampleConfig.toSettings with
    | ok settings => exact ⟨settings, rfl⟩
    | error e =>
      rw [hread] at hsettings
      cases hsettings
  exact ⟨legible_sampleEnvironment, hc, hresolves, settings, hok, hcarries settings hok⟩

end Config

end ApiDoc

import KineticAlphabet.CommandLine.Run
import KineticAlphabet.Proofs.Completeness
import KineticAlphabet.Proofs.Validity
/-!
Options against the file that they override. What they leave to the file is all that counts of it
once the two are merged, and a seed among them leaves nothing to chance. But a file is held to the
limits by itself before it is merged, and one that exceeds them is refused, whatever the options put
in the place of its values.
-/
namespace KineticAlphabet

namespace Config

variable {c : Config} {path text : String}

/-- The configuration that a file tells, whether or not it keeps to any limits. -/
def told? (path text : String) : Option Config :=
  match fileEnding path with
  | "json" => (Json.Doc.readText ofDoc text).toOption
  | "yaml" | "yml" => (Yaml.Node.ofText? text).bind fun n => (ofNode n).toOption
  | _ => none

theorem ofJson_of_told (limits : Limits) (h : (Json.Doc.readText ofDoc text).toOption = some c) :
    ofJson limits text = checked limits c := by
  rw [ofJson, ok_of_toOption h]

theorem ofYaml_of_told (limits : Limits)
    (h : ((Yaml.Node.ofText? text).bind fun n => (ofNode n).toOption) = some c) :
    ofYaml limits text = checked limits c := by
  obtain ⟨n, hn, hc⟩ := Option.bind_eq_some_iff.mp h
  rw [ofYaml, hn, Option.map_some, ok_of_toOption hc]

/-- A file that tells a configuration is loaded where that keeps to the limits. -/
theorem ofFile_of_told (limits : Limits) (h : told? path text = some c) :
    ofFile limits path (some text) = checked limits c := by
  unfold told? at h
  unfold ofFile
  split at h
  case h_1 hending => simpa only [hending] using ofJson_of_told limits h
  case h_2 hending => simpa only [hending] using ofYaml_of_told limits h
  case h_3 hending => simpa only [hending] using ofYaml_of_told limits h
  case h_4 => cases h

end Config

namespace CommandLine

variable {c c' : Config}

def Outcome.Failed (o : Outcome) : Prop := o.code ≠ 0 ∧ o.output = ""

theorem failed_failure (context : String) (causes : List String) :
    (Outcome.failure context causes).Failed :=
  ⟨Nat.one_ne_zero, rfl⟩

theorem failed_loadFailure (path : String) (e : Config.LoadError) :
    (loadFailure path e).Failed := by
  cases e <;> exact ⟨Nat.one_ne_zero, rfl⟩

namespace GenerateOptions

variable {w : GenerateOptions}

/-- Two configurations agree in all that the options leave as it is. -/
structure AgreeBeside (w : GenerateOptions) (c c' : Config) : Prop where
  mode : w.mode = none → c.mode = c'.mode
  length : w.length = none → c.length = c'.length
  level : w.level = none → c.level = c'.level
  turnIntensity : w.turnIntensity = none → c.turnIntensity = c'.turnIntensity
  grid : w.grid = none → c.grid = c'.grid
  continuity : w.continuity = none → c.continuity = c'.continuity
  letterTypes : w.letterTypes = none → c.letterTypes = c'.letterTypes
  slice : w.slice = none → c.slice = c'.slice
  cap : w.cap = none → c.cap = c'.cap
  excludedLetters : w.excluded = none → c.excludedLetters = c'.excludedLetters
  seed : w.seed = none → c.seed = c'.seed
  maxAttempts : c.maxAttempts = c'.maxAttempts

theorem getD_congr {α : Type} {o : Option α} {a b : α} (h : o = none → a = b) :
    o.getD a = o.getD b := by
  cases o with
  | none => exact h rfl
  | some => rfl

theorem or_congr {α : Type} {o a b : Option α} (h : o = none → a = b) : o.or a = o.or b := by
  cases o with
  | none => exact h rfl
  | some => rfl

/-- Then nothing but their letter types can differ once the other options are in their place. -/
theorem AgreeBeside.override_eq (h : w.AgreeBeside c c') :
    w.override c = { w.override c' with letterTypes := c.letterTypes } := by
  simp only [override, Config.mk.injEq]
  exact ⟨getD_congr h.mode, getD_congr h.length, getD_congr h.level, getD_congr h.turnIntensity,
    getD_congr h.grid, getD_congr h.continuity, trivial, getD_congr h.slice, getD_congr h.cap,
    getD_congr h.excludedLetters, or_congr h.seed, h.maxAttempts⟩

/-- So they merge into the same configuration. -/
theorem AgreeBeside.merge_eq (h : w.AgreeBeside c c') : w.merge c = w.merge c' := by
  rw [merge, merge, h.override_eq]
  cases hw : w.letterTypes with
  | none => simp only [overrideTypes, hw, h.letterTypes hw, override]
  | some numbers => simp only [overrideTypes, hw]

theorem overrideTypes_eq_ok {m : Config} (h : w.overrideTypes c = .ok m) :
    ∃ types, m = { c with letterTypes := types } := by
  unfold overrideTypes at h
  split at h
  case h_1 =>
    cases h
    exact ⟨c.letterTypes, rfl⟩
  case h_2 numbers _ =>
    cases htypes : typesOfNumbers numbers with
    | error n =>
      rw [htypes] at h
      cases h
    | ok types =>
      rw [htypes] at h
      cases h
      exact ⟨types, rfl⟩

theorem seed_of_merge {m : Config} (h : w.merge c = .ok m) : m.seed = w.seed.or c.seed := by
  obtain ⟨types, rfl⟩ := overrideTypes_eq_ok h
  rfl

end GenerateOptions

variable {w : GenerateOptions}

/-- With a seed a configuration leaves nothing to chance. -/
theorem generateWithin_of_seed (hseed : c.seed.isSome) (seed seed' : UInt64) :
    generateWithin seed c = generateWithin seed' c := by
  obtain ⟨s, hs⟩ := Option.isSome_iff_exists.mp hseed
  rw [generateWithin, generateWithin, hs, Option.getD_some, Option.getD_some]

theorem generateMerged_of_seed (hseed : w.seed.isSome) (compact : Bool) (seed seed' : UInt64) :
    generateMerged seed compact (w.merge c) = generateMerged seed' compact (w.merge c) := by
  cases hm : w.merge c with
  | error n => rfl
  | ok m =>
    have hsome : m.seed.isSome := by
      obtain ⟨s, hs⟩ := Option.isSome_iff_exists.mp hseed
      rw [GenerateOptions.seed_of_merge hm, hs]
      rfl
    rw [generateMerged, generateMerged, generateWithin_of_seed hsome seed seed']

/-- What comes out has a name here, as the kernel would otherwise evaluate it. -/
theorem generateWithin_eq {r : Except GenerationError Sequence} {seed : UInt64}
    (hkeeps : c.KeepsTo .standard)
    (hrun : ((Generation.run Random.ChaCha.source c).run (.ofSeed (c.seed.getD seed))).1 = r) :
    generateWithin seed c = r := by
  rw [generateWithin, hrun, Config.checkWithin_eq_ok_iff.mpr hkeeps]

theorem failed_generateMerged (hnot : ¬ c.KeepsTo .standard) (seed : UInt64) (compact : Bool) :
    (generateMerged seed compact (.ok c)).Failed := by
  cases hcheck : c.checkWithin .standard with
  | ok u => exact absurd (Config.checkWithin_eq_ok_iff.mp hcheck) hnot
  | error fault =>
    rw [generateMerged, generateWithin, hcheck]
    exact failed_failure _ _

/-- With random props and no excluded letters, a configuration within limits gives a sequence. -/
theorem code_generateMerged (hkeeps : c.KeepsTo .standard) (hrandom : c.continuity = .random)
    (hall : c.excludedLetters = []) (seed : UInt64) (compact : Bool) :
    (generateMerged seed compact (.ok c)).code = 0 := by
  have hcheck := Config.check_eq_ok_iff.mpr hkeeps.admitted
  obtain ⟨s, hs⟩ := Generation.exists_sequence Random.ChaCha.source hcheck hrandom hall
    (.ofSeed (c.seed.getD seed))
  rw [Generation.generate_eq_run _ hcheck] at hs
  rw [generateMerged, generateWithin_eq hkeeps hs]
  rfl

section File

variable {path : String} {files : String → Option String} {args : List String}
  (hargs : Command.ofArguments? args = some (.generate { w with config := some path }))
  (hfile : (files path).bind (Config.told? path) = some c) (entropy : UInt64)
include hargs hfile

/-- A generation from a file shows what becomes of the merged configuration, if that of the file
keeps to the limits, and otherwise what is wrong with the file. -/
theorem run_of_told :
    run files entropy args = match c.checkWithin .standard with
      | .ok () => generateMerged entropy w.compact.isSome (w.merge c)
      | .error fault => loadFailure path (.invalid fault) := by
  obtain ⟨text, htext, htold⟩ := Option.bind_eq_some_iff.mp hfile
  simp only [run, hargs, Command.run, runGenerate, loadConfig, htext, Config.ofFile_of_told _ htold,
    Config.checked]
  cases c.checkWithin .standard <;> rfl

theorem run_of_keepsTo (hseed : w.seed.isSome) (hkeeps : c.KeepsTo .standard) :
    run files entropy args = generateMerged 0 w.compact.isSome (w.merge c) := by
  rw [run_of_told hargs hfile entropy, Config.checkWithin_eq_ok_iff.mpr hkeeps]
  exact generateMerged_of_seed hseed _ _ _

theorem run_of_not_keepsTo (hnot : ¬ c.KeepsTo .standard) :
    ∃ fault, c.checkWithin .standard = .error fault ∧
      run files entropy args = loadFailure path (.invalid fault) := by
  cases hcheck : c.checkWithin .standard with
  | ok u => exact absurd (Config.checkWithin_eq_ok_iff.mp hcheck) hnot
  | error fault =>
    refine ⟨fault, rfl, ?_⟩
    rw [run_of_told hargs hfile entropy, hcheck]

theorem failed_of_not_keepsTo (hnot : ¬ c.KeepsTo .standard) : (run files entropy args).Failed := by
  obtain ⟨fault, -, hrun⟩ := run_of_not_keepsTo hargs hfile entropy hnot
  rw [hrun]
  exact failed_loadFailure _ _

end File

/-- Two files agree beside the options, of which one is a seed. Where both keep to the limits by
themselves, the generations from them show the same, namely what becomes of the configuration that
either is merged into, which has to keep to the limits too. A file that does not keep to them is
refused for what is wrong with itself, so where neither does, both generations fail. -/
theorem run_overridden {path path' : String} {files files' : String → Option String}
    {args args' : List String}
    (hargs : Command.ofArguments? args = some (.generate { w with config := some path }))
    (hargs' : Command.ofArguments? args' = some (.generate { w with config := some path' }))
    (hseed : w.seed.isSome)
    (hfile : (files path).bind (Config.told? path) = some c)
    (hfile' : (files' path').bind (Config.told? path') = some c')
    (hagree : w.AgreeBeside c c') (entropy entropy' : UInt64) :
    (c.KeepsTo .standard → c'.KeepsTo .standard →
      run files entropy args = run files' entropy' args') ∧
    (c.KeepsTo .standard →
      run files entropy args = generateMerged 0 w.compact.isSome (w.merge c) ∧
      ∀ m, w.merge c = .ok m → ¬ m.KeepsTo .standard → (run files entropy args).Failed) ∧
    (¬ c.KeepsTo .standard → ∃ fault, c.checkWithin .standard = .error fault ∧
      run files entropy args = loadFailure path (.invalid fault)) ∧
    (¬ c.KeepsTo .standard → ¬ c'.KeepsTo .standard →
      (run files entropy args).Failed ∧ (run files' entropy' args').Failed) := by
  have hrun := run_of_keepsTo hargs hfile entropy hseed
  have hrun' := run_of_keepsTo hargs' hfile' entropy' hseed
  refine ⟨fun hkeeps hkeeps' => ?_, fun hkeeps => ⟨hrun hkeeps, fun m hm hnot => ?_⟩,
    run_of_not_keepsTo hargs hfile entropy, fun hnot hnot' => ⟨?_, ?_⟩⟩
  · calc run files entropy args
      _ = generateMerged 0 w.compact.isSome (w.merge c) := hrun hkeeps
      _ = generateMerged 0 w.compact.isSome (w.merge c') := by rw [hagree.merge_eq]
      _ = run files' entropy' args' := (hrun' hkeeps').symm
  · rw [hrun hkeeps, hm]
    exact failed_generateMerged hnot _ _
  · exact failed_of_not_keepsTo hargs hfile entropy hnot
  · exact failed_of_not_keepsTo hargs' hfile' entropy' hnot'

/-- One beat with random props, whatever a file asks for. -/
def oneBeat : GenerateOptions :=
  { length := some 1, continuity := some .random, seed := some 7, compact := some () }

def oneBeatFrom (path : String) : List String :=
  ["generate", "--compact", "-c", path, "-l", "1", "--continuity", "random", "-s", "7"]

/-- Three files, of which one asks for more beats than there may be. -/
def threeFiles : String → Option String
  | "long.json" => some "\x7b\"length\": 100\x7d"
  | "short.json" => some "\x7b\"length\": 16\x7d"
  | "random.yml" => some "length: 8\nprop_continuity: random\n"
  | _ => none

/-- The standard configuration with some length, continuity and seed. -/
def standardWith (length : Nat) (continuity : Continuity) (seed : Option UInt64) : Config :=
  { Config.standard with length, continuity, seed }

theorem keepsTo_standard : Config.standard.KeepsTo .standard where
  admitted := by constructor <;> decide +kernel
  length_le := by decide
  turnIntensity_le := by decide +kernel
  attempts_le := by decide

theorem keepsTo_standardWith {n : Nat} (hpos : 0 < n) (hle : n ≤ 64) (k : Continuity)
    (seed : Option UInt64) : (standardWith n k seed).KeepsTo .standard :=
  { keepsTo_standard with
    admitted := { keepsTo_standard.admitted with length_pos := hpos, divisible := nofun }
    length_le := hle }

theorem run_overridden_short_random :
    run threeFiles 0 (oneBeatFrom "short.json") = run threeFiles 1 (oneBeatFrom "random.yml") := by
  have hargs : ∀ path ∈ ["short.json", "random.yml"], Command.ofArguments? (oneBeatFrom path) =
      some (.generate { oneBeat with config := some path }) := by decide +kernel
  have hagree : oneBeat.AgreeBeside (standardWith 16 .continuous none)
      (standardWith 8 .random none) := by
    constructor <;> simp [oneBeat, standardWith]
  exact (run_overridden (hargs _ (by simp)) (hargs _ (by simp)) rfl (by decide +kernel)
    (by decide +kernel) hagree 0 1).1
    (keepsTo_standardWith (by decide) (by decide) _ _)
    (keepsTo_standardWith (by decide) (by decide) _ _)

/-- The options of one beat replace the length that a file asks for. But the file with too many is
refused, and the other is not. -/
theorem run_long_ne_run_short :
    ∃ c c', (threeFiles "long.json").bind (Config.told? "long.json") = some c ∧
      (threeFiles "short.json").bind (Config.told? "short.json") = some c' ∧
      oneBeat.AgreeBeside c c' ∧
      (∀ path ∈ ["long.json", "short.json"], Command.ofArguments? (oneBeatFrom path) =
        some (.generate { oneBeat with config := some path })) ∧
      (run threeFiles 0 (oneBeatFrom "long.json")).Failed ∧
      (run threeFiles 0 (oneBeatFrom "short.json")).code = 0 := by
  have hlong : (threeFiles "long.json").bind (Config.told? "long.json") =
      some (standardWith 100 .continuous none) := by decide +kernel
  have hshort : (threeFiles "short.json").bind (Config.told? "short.json") =
      some (standardWith 16 .continuous none) := by decide +kernel
  have hargs : ∀ path ∈ ["long.json", "short.json"], Command.ofArguments? (oneBeatFrom path) =
      some (.generate { oneBeat with config := some path }) := by decide +kernel
  have hagree : oneBeat.AgreeBeside (standardWith 100 .continuous none)
      (standardWith 16 .continuous none) := by
    constructor <;> simp [oneBeat, standardWith]
  refine ⟨_, _, hlong, hshort, hagree, hargs, ?_, ?_⟩
  · have hnot : ¬ (standardWith 100 .continuous none).KeepsTo .standard :=
      fun h => absurd h.length_le (by decide)
    exact failed_of_not_keepsTo (hargs _ (by simp)) hlong 0 hnot
  · have hmerge : oneBeat.merge (standardWith 16 .continuous none) =
        .ok (standardWith 1 .random (some 7)) := rfl
    rw [run_of_keepsTo (hargs _ (by simp)) hshort 0 rfl
      (keepsTo_standardWith (by decide) (by decide) _ _), hmerge]
    exact code_generateMerged (keepsTo_standardWith (by decide) (by decide) _ _) rfl rfl _ _

end CommandLine
end KineticAlphabet

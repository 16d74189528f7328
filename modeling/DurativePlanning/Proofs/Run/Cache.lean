import DurativePlanning.Proofs.Exact
import DurativePlanning.Proofs.Reference.Catalogue
import DurativePlanning.Proofs.Storage.CacheKey
import DurativePlanning.Run.Compile
import Mathlib.Data.Rat.Floor

/-!
# The Cache of Compiled Bundles

The file of a bundle is named by the key of its domain, and the deadline is not part of the key. A
bundle from a file is still the bundle that would be built: the key tells everything else about a
reference domain, and the deadline is set on the bundle again. The invariant behind this is that
every text which decodes at all is the bundle of some reference domain whose file has that name.

* `RunConfig.reference`: the domain that the settings name.
* `Sound`: the invariant.
* `Sound.fst_run_loadOrBuild`: a cached bundle is the one that would be built.
* `Sound.of_compile`: a compilation keeps the invariant.
* `compile_cached`: compilations with the cache give what they give without it.
-/

namespace DurativePlanning

open Storage

variable {σ α : Type}

/-! ### Results apart from the cache -/

/-- A report without the cache status and the compile time. -/
def CompileReport.bare (r : CompileReport) : CompileReport :=
  { r with cache := none, compileSecs := 0 }

/-- The process and the report of a compilation, but for the cache status and the compile time. -/
def bareResult (result : Except (CompileError α) (Mdp α × CompileReport)) :
    Except (CompileError α) (Mdp α × CompileReport) :=
  (fun compiled => (compiled.1, compiled.2.bare)) <$> result

variable [Arithmetic α]

/-- The domain that the settings name. -/
def RunConfig.reference (config : RunConfig α) : Except Reference.ReferenceError (Domain α) :=
  Reference.build config.domain config.kind config.deadline config.objectAmount
    config.garbageAmount

/-- The bundles that a call may store are read back as they were written: `decode` undoes
`encode`. -/
def Storage.BundleCodec.Restores (codec : BundleCodec α) (config : RunConfig α) : Prop :=
  ∀ d b, config.reference = .ok d → d.compileCombination = .ok b →
    codec.decode (codec.encode b) = .ok b

/-! ### Fresh bundles -/

/-- A bundle that `compileCombination` builds for a reference domain whose file has a name. -/
def IsFresh (file : String) (b : Bundle α) : Prop :=
  ∃ (config : RunConfig α) (d : Domain α), config.reference = .ok d ∧
    (CacheKey.ofDomain d).fileName = file ∧ d.compileCombination = .ok b

section Reference

variable {config config' : RunConfig α} {d d' : Domain α}

/-- **Reference domains that share a file** are the same but for the deadline. -/
theorem eq_withDeadline_of_fileName (hd : config.reference = .ok d)
    (hd' : config'.reference = .ok d')
    (hfile : (CacheKey.ofDomain d').fileName = (CacheKey.ofDomain d).fileName) :
    d' = d.withDeadline config'.deadline :=
  Reference.eq_withDeadline_of_key hd hd' (CacheKey.injective_fileName hfile)

/-- A fresh bundle serves every domain whose file has its name. -/
theorem IsFresh.compileCombination {b : Bundle α} (hd : config.reference = .ok d)
    (hb : IsFresh (CacheKey.ofDomain d).fileName b) :
    d.compileCombination = .ok (b.withDeadline config.deadline) := by
  obtain ⟨config', d', hd', hfile, hbuilt⟩ := hb
  rw [eq_withDeadline_of_fileName hd' hd hfile.symm, Domain.compileCombination_withDeadline, hbuilt]
  rfl

/-- A bundle that is built for a call has the deadline of the call already. -/
theorem withDeadline_of_compileCombination {b : Bundle α} (hd : config.reference = .ok d)
    (hb : d.compileCombination = .ok b) : b.withDeadline config.deadline = b := by
  have hfresh := IsFresh.compileCombination hd ⟨config, d, hd, rfl, hb⟩
  exact (Except.ok.inj (hb.symm.trans hfresh)).symm

/-- The name of the file of a reference domain is a single part of a path. -/
theorem isFileName_of_reference (hd : config.reference = .ok d) :
    IsFileName (CacheKey.ofDomain d).fileName := by
  have hslash : '/' ∉ config.domain.toList := by
    rcases Reference.build_cases hd with ⟨hname, -⟩ | ⟨hname, -⟩ | ⟨hname, -⟩
    · rw [hname]
      decide
    · rw [hname]
      decide
    · rw [hname]
      decide
  apply CacheKey.isFileName_fileName
  rw [Reference.ofDomain_build hd]
  exact hslash

end Reference

/-! ### The invariant -/

/-- **The invariant**: every text that decodes is a bundle that `IsFresh` for the name of its
file. -/
def Sound (holds : σ → String → String → Prop) (codec : BundleCodec α) (s : σ) : Prop :=
  ∀ file text b, holds s file text → codec.decode text = .ok b → IsFresh file b

section Loading

variable {files : FileAccess (StateM σ)} {holds : σ → String → String → Prop}
  {codec : BundleCodec α} {config : RunConfig α} {d : Domain α} {b : Bundle α}
  {directory : String} {s s' : σ} {ε : Type}

/-- The invariant is kept by whatever adds no text to a file. -/
theorem Sound.of_holds (sound : Sound holds codec s)
    (h : ∀ file text, holds s' file text → holds s file text) : Sound holds codec s' :=
  fun file text b hheld hdecode => sound file text b (h file text hheld) hdecode

omit [Arithmetic α] in
/-- `load` reads the file and decodes its text, each of which may fail. -/
theorem run_load (path : String) :
    (load files codec.decode path).run s =
      (match ((files.read path).run s).1 with
      | .error cause => .error (.io cause)
      | .ok text =>
        match codec.decode text with
        | .error cause => .error (.yaml cause)
        | .ok b => .ok b, ((files.read path).run s).2) := by
  simp only [load, run_bind]
  cases ((files.read path).run s).1 with
  | error cause => rfl
  | ok text =>
    dsimp only
    cases codec.decode text <;> rfl

omit [Arithmetic α] in
/-- Storing a bundle leaves the files as writing its text does. -/
theorem snd_run_saveBundle (path : String) :
    ((saveBundle files codec path b).run s).2 =
      ((files.write path (codec.encode b)).run s).2 := by
  simp only [saveBundle, run_bind]
  cases ((files.write path (codec.encode b)).run s).1 <;> rfl

omit [Arithmetic α] in
/-- `loadOrBuild` takes the bundle that it loads under the deadline of the call, or else builds one
and stores it. -/
theorem run_loadOrBuild (build : Unit → Except ε (Bundle α)) (key : CacheKey) (deadline : Nat) :
    (loadOrBuild files codec directory key deadline build).run s =
      match (load files codec.decode (key.path directory)).run s with
      | (.ok b, s') => (.ok (b.withDeadline deadline, .hit), s')
      | (.error _, s') =>
        match build () with
        | .error cause => (.error cause, s')
        | .ok b =>
          (.ok (b.withDeadline deadline, .miss),
            ((saveBundle files codec (key.path directory) b).run s').2) := by
  simp only [loadOrBuild, run_bind]
  rcases (load files codec.decode (key.path directory)).run s with ⟨_ | b, s'⟩
  · dsimp only
    cases build () <;> rfl
  · rfl

/-- A bundle that is loaded for a reference domain is fresh. -/
theorem Sound.isFresh_of_load (sound : Sound holds codec s) (keeps : files.Keeps holds)
    (hd : config.reference = .ok d)
    (hload : ((load files codec.decode ((CacheKey.ofDomain d).path directory)).run s).1 = .ok b) :
    IsFresh (CacheKey.ofDomain d).fileName b := by
  rw [run_load] at hload
  dsimp only at hload
  split at hload
  · cases hload
  · rename_i text hread
    split at hload
    · cases hload
    · rename_i kept hdecode
      obtain rfl : kept = b := Except.ok.inj hload
      exact sound _ text kept (keeps.read_held (isFileName_of_reference hd) hread) hdecode

/-- Loading keeps the invariant. -/
theorem Sound.of_load (sound : Sound holds codec s) (keeps : files.Keeps holds) (path : String) :
    Sound holds codec ((load files codec.decode path).run s).2 := by
  rw [run_load]
  exact sound.of_holds fun _ _ => keeps.held_of_read

/-- `saveBundle` of the bundle of a reference domain under its key keeps the invariant. -/
theorem Sound.of_saveBundle (sound : Sound holds codec s) (keeps : files.Keeps holds)
    (restores : codec.Restores config) (hd : config.reference = .ok d)
    (hb : d.compileCombination = .ok b) :
    Sound holds codec
      ((saveBundle files codec ((CacheKey.ofDomain d).path directory) b).run s).2 := by
  intro file text kept hheld hdecode
  rw [snd_run_saveBundle] at hheld
  rcases keeps.held_of_write (isFileName_of_reference hd) hheld with hold | ⟨rfl, rfl⟩
  · exact sound file text kept hold hdecode
  · rw [restores d b hd hb] at hdecode
    obtain rfl := Except.ok.inj hdecode
    exact ⟨config, d, hd, rfl, hb⟩

/-- **A cached bundle is the one that would be built**, and there is none when none can be built:
`loadOrBuild` over `Sound` files gives the result of `compileCombination`. -/
theorem Sound.fst_run_loadOrBuild (sound : Sound holds codec s) (keeps : files.Keeps holds)
    (hd : config.reference = .ok d) {build : Unit → Except ε (Bundle α)}
    (hbuild : ∀ b, build () = .ok b ↔ d.compileCombination = .ok b) (directory : String) :
    Prod.fst <$>
        ((loadOrBuild files codec directory (.ofDomain d) config.deadline build).run s).1 =
      build () := by
  rw [run_loadOrBuild]
  cases hload : (load files codec.decode ((CacheKey.ofDomain d).path directory)).run s with
  | mk loaded s' =>
    cases loaded with
    | ok b =>
      have hfresh := sound.isFresh_of_load keeps hd (congrArg Prod.fst hload)
      exact ((hbuild _).2 (hfresh.compileCombination hd)).symm
    | error cause =>
      cases hb : build () with
      | error cause => rfl
      | ok b =>
        dsimp only
        rw [withDeadline_of_compileCombination hd ((hbuild b).1 hb)]
        rfl

/-- `loadOrBuild` keeps the invariant: what it stores is fresh. -/
theorem Sound.of_loadOrBuild (sound : Sound holds codec s) (keeps : files.Keeps holds)
    (restores : codec.Restores config) (hd : config.reference = .ok d)
    {build : Unit → Except ε (Bundle α)}
    (hbuild : ∀ b, build () = .ok b ↔ d.compileCombination = .ok b) (directory : String) :
    Sound holds codec
      ((loadOrBuild files codec directory (.ofDomain d) config.deadline build).run s).2 := by
  rw [run_loadOrBuild]
  have hsound := sound.of_load keeps ((CacheKey.ofDomain d).path directory)
  rcases hload :
    (load files codec.decode ((CacheKey.ofDomain d).path directory)).run s with
    ⟨cause | b, s'⟩
  · rw [hload] at hsound
    cases hb : build () with
    | error cause => exact hsound
    | ok b => exact hsound.of_saveBundle keeps restores hd ((hbuild b).1 hb)
  · rw [hload] at hsound
    exact hsound

end Loading

/-! ### Compilations -/

section Compiling

variable {files : FileAccess (StateM σ)} {holds : σ → String → String → Prop}
  {codec : BundleCodec α} {clock : StateM σ Nat} {config : RunConfig α} {d : Domain α} {s : σ}

omit [Arithmetic α] in
/-- Another kind of error does not change whether there is one. -/
theorem asError_eq_ok_iff {ε ε' β : Type} {f : ε → ε'} {x : Except ε β} {y : β} :
    asError f x = .ok y ↔ x = .ok y := by
  cases x <;> simp [asError]

/-- Without a cache the bundle is built. -/
def buildBundle (d : Domain α) (_ : Unit) : Except (CompileError α) (Bundle α) :=
  asError .model d.compileCombination

omit [Arithmetic α] in
/-- Without a cache the bundle is that of `compileCombination`. -/
theorem buildBundle_eq_ok_iff (b : Bundle α) :
    buildBundle d () = .ok b ↔ d.compileCombination = .ok b :=
  asError_eq_ok_iff

/-- The report of a compilation differs from that of another with the same bundle in the cache
status at most. -/
theorem bareResult_compileBundle (b : Bundle α) (cache : Option CacheStatus) :
    bareResult (compileBundle d config b cache) = bareResult (compileBundle d config b none) := by
  simp only [compileBundle]
  cases Mdp.ofCombination b.combination config.discount <;> rfl

/-- In combination mode a domain is compiled with the cache from the bundle of `loadOrBuild`. -/
theorem run_compileDomain_cached (hkind : config.kind = .combination) :
    (compileDomain files codec d config true).run s =
      ((do
        let cached ← ((loadOrBuild files codec config.cacheDir (.ofDomain d) config.deadline
          (buildBundle d)).run s).1
        compileBundle d config cached.1 (some cached.2)),
      ((loadOrBuild files codec config.cacheDir (.ofDomain d) config.deadline
        (buildBundle d)).run s).2) := by
  have hbuild : (fun _ : Unit => asError CompileError.model d.compileCombination) =
    buildBundle d := rfl
  simp only [compileDomain, hkind, if_true, run_bind, hbuild]
  rcases (loadOrBuild files codec config.cacheDir (.ofDomain d) config.deadline
    (buildBundle d)).run s with ⟨_ | _, _⟩ <;> rfl

/-- In combination mode a domain is compiled without the cache from the bundle that is built. -/
theorem run_compileDomain_direct (hkind : config.kind = .combination) :
    (compileDomain files codec d config false).run s =
      ((do
        let b ← buildBundle d ()
        compileBundle d config b none), s) := by
  have hbuild : asError CompileError.model d.compileCombination = buildBundle d () := rfl
  simp only [compileDomain, hkind, Bool.false_eq_true, if_false, hbuild]
  cases buildBundle d () <;> rfl

/-- **With a sound cache** the process and the report that `compileDomain` gives are those without
the cache. -/
theorem Sound.bareResult_compileDomain (sound : Sound holds codec s) (keeps : files.Keeps holds)
    (hd : config.reference = .ok d) (s' : σ) :
    bareResult ((compileDomain files codec d config true).run s).1 =
      bareResult ((compileDomain files codec d config false).run s').1 := by
  cases hkind : config.kind with
  | regular =>
    simp only [compileDomain, hkind]
    rfl
  | regularAsBaseline =>
    simp only [compileDomain, hkind]
    rfl
  | combination =>
    have hbundle := sound.fst_run_loadOrBuild keeps hd buildBundle_eq_ok_iff config.cacheDir
    rw [run_compileDomain_cached hkind, run_compileDomain_direct hkind, ← hbundle]
    cases ((loadOrBuild files codec config.cacheDir (.ofDomain d) config.deadline
      (buildBundle d)).run s).1 with
    | error cause => rfl
    | ok cached => exact bareResult_compileBundle cached.1 (some cached.2)

/-- Compiling a domain keeps the invariant. -/
theorem Sound.of_compileDomain (sound : Sound holds codec s) (keeps : files.Keeps holds)
    (restores : codec.Restores config) (hd : config.reference = .ok d) :
    Sound holds codec ((compileDomain files codec d config true).run s).2 := by
  cases hkind : config.kind with
  | regular =>
    simp only [compileDomain, hkind]
    exact sound
  | regularAsBaseline =>
    simp only [compileDomain, hkind]
    exact sound
  | combination =>
    rw [run_compileDomain_cached hkind]
    exact sound.of_loadOrBuild keeps restores hd buildBundle_eq_ok_iff config.cacheDir

/-- `compile` looks the domain up, compiles it between two looks at the clock, and reports the
time. -/
theorem run_compile (useCache : Bool) :
    (compile files codec clock config useCache).run s =
      match config.reference with
      | .error cause => (.error (.reference cause), (clock.run s).2)
      | .ok d =>
        match (compileDomain files codec d config useCache).run (clock.run s).2 with
        | (.error cause, s') => (.error cause, s')
        | (.ok (mdp, sizes), s') =>
          (.ok (mdp, { sizes with
            compileSecs := secondsOf ((clock.run s').1 - (clock.run s).1) }), (clock.run s').2) := by
  have hreference : Reference.build config.domain config.kind config.deadline config.objectAmount
    config.garbageAmount = config.reference := rfl
  simp only [compile, run_bind, hreference]
  cases config.reference with
  | error cause => rfl
  | ok d =>
    simp only [run_bind]
    rcases (compileDomain files codec d config useCache).run (clock.run s).2 with
      ⟨_ | _, _⟩ <;> rfl

/-- The result of a compilation is that of its domain: the clock tells the time only. -/
theorem bareResult_run_compile (useCache : Bool) :
    bareResult ((compile files codec clock config useCache).run s).1 =
      match config.reference with
      | .error cause => .error (.reference cause)
      | .ok d =>
        bareResult ((compileDomain files codec d config useCache).run (clock.run s).2).1 := by
  rw [run_compile]
  cases config.reference with
  | error cause => rfl
  | ok d =>
    dsimp only
    rcases (compileDomain files codec d config useCache).run (clock.run s).2 with ⟨_ | _, _⟩ <;> rfl

/-- What a compilation gives with a sound cache is what it gives without, in whatever state that is
asked. -/
theorem Sound.bareResult_compile (sound : Sound holds codec s) (keeps : files.Keeps holds)
    (still : ∀ s file text, holds (clock.run s).2 file text → holds s file text) (s' : σ) :
    bareResult ((compile files codec clock config true).run s).1 =
      bareResult ((compile files codec clock config false).run s').1 := by
  rw [bareResult_run_compile, bareResult_run_compile]
  cases hd : config.reference with
  | error cause => rfl
  | ok d => exact (sound.of_holds (still s)).bareResult_compileDomain keeps hd (clock.run s').2

/-- A call keeps the invariant. -/
theorem Sound.of_compile (sound : Sound holds codec s) (keeps : files.Keeps holds)
    (still : ∀ s file text, holds (clock.run s).2 file text → holds s file text)
    (restores : codec.Restores config) :
    Sound holds codec ((compile files codec clock config true).run s).2 := by
  rw [run_compile]
  have hbegun := sound.of_holds (still s)
  cases hd : config.reference with
  | error cause => exact hbegun
  | ok d =>
    have hdone := hbegun.of_compileDomain keeps restores hd
    dsimp only
    rcases hrun : (compileDomain files codec d config true).run (clock.run s).2 with ⟨_ | _, s'⟩
    · rw [hrun] at hdone
      exact hdone
    · rw [hrun] at hdone
      exact hdone.of_holds (still s')

/-- **A sequence of calls**: each gives what it gives without the cache, and the files are `Sound`
afterwards. The induction is on the calls; every call starts from a sound state. -/
theorem Sound.calls (keeps : files.Keeps holds)
    (still : ∀ s file text, holds (clock.run s).2 file text → holds s file text)
    {configs : List (RunConfig α)} (restores : ∀ c ∈ configs, codec.Restores c)
    (sound : Sound holds codec s) (s' : σ) :
    let calls := (configs.mapM (compile files codec clock · true)).run s
    calls.1.map bareResult =
        configs.map (fun c => bareResult ((compile files codec clock c false).run s').1) ∧
      Sound holds codec calls.2 := by
  induction configs generalizing s with
  | nil => exact ⟨rfl, sound⟩
  | cons c rest ih =>
    have hfirst : bareResult ((compile files codec clock c true).run s).1 =
        bareResult ((compile files codec clock c false).run s').1 :=
      sound.bareResult_compile keeps still s'
    have hafter := sound.of_compile keeps still (restores c (by simp))
    obtain ⟨hrest, hsound⟩ := ih (fun c' hc' => restores c' (by simp [hc'])) hafter
    simp only [List.mapM_cons, run_bind]
    exact ⟨congrArg₂ List.cons hfirst hrest, hsound⟩

/-- **The cache is transparent for the reference domains.** Let files keep what is written, let the
bundles of some calls be read back as they were written, and let no file decode in the beginning.
Then each call of the sequence fails or gives a process and a report as it does without the cache,
whatever directories the calls name. What the cache gives afterwards, for whatever call and
directory, is the bundle that would be built. Files are shared only by domains of one name, one kind
and one number of rovers, which differ in the deadline at most; and a bundle takes its deadline
before or after it is compiled. -/
theorem compile_cached (keeps : files.Keeps holds)
    (still : ∀ s file text, holds (clock.run s).2 file text → holds s file text)
    (configs : List (RunConfig α)) (restores : ∀ c ∈ configs, codec.Restores c) (s s' : σ)
    (unreadable : ∀ file text b, holds s file text → codec.decode text ≠ .ok b) :
    ((configs.mapM (compile files codec clock · true)).run s).1.map bareResult =
        configs.map (fun c => bareResult ((compile files codec clock c false).run s').1) ∧
      (∀ (c : RunConfig α) (d : Domain α) (directory : String), c.reference = .ok d →
        Prod.fst <$> ((loadOrBuild files codec directory (.ofDomain d) c.deadline fun _ =>
            d.compileCombination).run
          ((configs.mapM (compile files codec clock · true)).run s).2).1 =
        d.compileCombination) ∧
      (∀ (c c' : RunConfig α) (d d' : Domain α), c.reference = .ok d → c'.reference = .ok d' →
        (CacheKey.ofDomain d').fileName = (CacheKey.ofDomain d).fileName →
          c'.domain = c.domain ∧ c'.kind = c.kind ∧
          (c.domain = "nasa_rover" → c'.objectAmount = c.objectAmount) ∧
          d' = d.withDeadline c'.deadline) ∧
      ∀ (d : Domain α) (deadline : Nat), (d.withDeadline deadline).compileCombination =
        (·.withDeadline deadline) <$> d.compileCombination := by
  have sound : Sound holds codec s := fun file text b hheld hdecode =>
    absurd hdecode (unreadable file text b hheld)
  obtain ⟨hcalls, hafter⟩ := Sound.calls keeps still restores sound s'
  refine ⟨hcalls, ?_, ?_, Domain.compileCombination_withDeadline⟩
  · intro c d directory hd
    exact hafter.fst_run_loadOrBuild keeps hd (fun _ => Iff.rfl) directory
  · intro c c' d d' hd hd' hfile
    have hkey := CacheKey.injective_fileName hfile
    rw [Reference.ofDomain_build hd, Reference.ofDomain_build hd'] at hkey
    obtain ⟨hname, hkind, hsizes⟩ := CacheKey.mk.inj hkey
    refine ⟨hname, hkind, fun hrover => ?_, eq_withDeadline_of_fileName hd hd' hfile⟩
    rw [hname, if_pos hrover, if_pos hrover] at hsizes
    exact (List.cons.inj hsizes).1

end Compiling

/-! ### Calls on the assembly domain -/

/-- A codec for the bundles of the assembly domain, as strokes for the ticks of the deadline. The
rest is built again. -/
def strokes : BundleCodec ℚ where
  encode b := String.ofList (List.replicate b.split.core.deadline '|')
  decode text :=
    if text.toList.all (· == '|') then
      match (Reference.fullConc .combination text.length).bind (·.compileCombination) with
      | .ok b => .ok b
      | .error _ => .error .unclosed
    else .error .unclosed

/-- A call for a domain with one object. -/
def callFor (domain : String) (deadline : Nat) (cacheDir : String) : RunConfig ℚ where
  domain
  kind := .combination
  deadline
  objectAmount := 1
  garbageAmount := 0
  runs := 1
  solver := .mcts
  horizonSecs := 1
  searchTimeSecs := 1
  searchDepth := 1
  explorationConstant := 1
  selection := .avg
  k := 1
  maxIterations := 1
  seed := 0
  discount := 1
  cacheDir

/-- The codec of strokes restores the bundles of the assembly domain. -/
theorem restores_assembly (deadline : Nat) (cacheDir : String) :
    strokes.Restores (callFor "full_conc" deadline cacheDir) := by
  intro d b hd hb
  have hdeadline : b.split.core.deadline = deadline :=
    congrArg (·.split.core.deadline) (withDeadline_of_compileCombination hd hb).symm
  have hbuilt : Reference.fullConc .combination deadline = .ok d := by
    rcases Reference.build_cases hd with ⟨-, hbuilt⟩ | ⟨hname, -⟩ | ⟨hname, -⟩
    · exact hbuilt
    · exact absurd hname (show "full_conc" ≠ "stuck_car_1o" by decide)
    · exact absurd hname (show "full_conc" ≠ "nasa_rover" by decide)
  have hbind : (Reference.fullConc .combination deadline).bind (·.compileCombination) = .ok b := by
    rw [hbuilt]
    exact hb
  simp [strokes, hdeadline, hbind]

/-- A directory with a damaged file in it. -/
def damaged : FileTree where
  entries := [(["home"], .directory), (["cache", "home"], .directory),
    (["full_conc_comb.yaml", "cache", "home"], .file "combination: [unterminated")]

/-- Calls with one deadline after another, by different paths to one directory, and a call for a
domain that there is not. -/
def assemblyCalls : List (RunConfig ℚ) :=
  [callFor "full_conc" 20 "cache", callFor "full_conc" 12 "./cache", callFor "grid" 20 "cache",
    callFor "full_conc" 20 "cache/"]

/-- In a directory with a damaged file for the assembly domain, the calls give one after the other
what they give without the cache; the one for no domain fails. -/
theorem compile_cached_assembly :
    assemblyCalls.map
        (fun c => ((compile FileTree.access strokes (pure 0) c false).run {}).1.isOk) =
      [true, true, false, true] ∧
    ((assemblyCalls.mapM (compile FileTree.access strokes (pure 0) · true)).run damaged).1.map
        bareResult =
      assemblyCalls.map
        (fun c => bareResult ((compile FileTree.access strokes (pure 0) c false).run {}).1) := by
  have hclock : ∀ (t : FileTree) file text,
      (((pure 0 : StateM FileTree Nat).run t).2).Holds file text → t.Holds file text :=
    fun _ _ _ h => h
  have hrestores : ∀ c ∈ assemblyCalls, strokes.Restores c := by
    intro c hc
    simp only [assemblyCalls, List.mem_cons, List.not_mem_nil, or_false] at hc
    rcases hc with rfl | rfl | rfl | rfl
    · exact restores_assembly 20 "cache"
    · exact restores_assembly 12 "./cache"
    · intro d b hd
      have hnone : (callFor "grid" 20 "cache").reference.isOk = false := by decide +kernel
      rw [hd] at hnone
      cases hnone
    · exact restores_assembly 20 "cache/"
  have hunreadable : ∀ file text b, damaged.Holds file text → strokes.decode text ≠ .ok b := by
    rintro file text b ⟨place, hfile⟩
    obtain rfl : text = "combination: [unterminated" := by
      simp only [FileTree.get?, damaged, List.lookup_cons, List.lookup_nil] at hfile
      grind
    simp [strokes]
  exact ⟨by decide +kernel,
    (compile_cached FileTree.keeps_access hclock assemblyCalls hrestores damaged {} hunreadable).1⟩

end DurativePlanning

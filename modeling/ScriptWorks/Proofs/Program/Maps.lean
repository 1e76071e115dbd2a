import Mathlib.Data.List.Basic
import ScriptWorks.Proofs.Path.Stripping
import ScriptWorks.Proofs.Program.SourceDir
import ScriptWorks.Proofs.Transpiling

/-!
# Scripts and their source maps

A source map lies beside its script and is named at the end of it. What is written for a program are
the scripts and maps of its sources, one pair for each.
-/

namespace ScriptWorks

open ScriptWorks.Path

/-! ## What a script says of its source map -/

namespace Script

/-- What stands before the name of a source map. -/
def mapMark : List Char := "//# sourceMappingURL=".toList

/-- What a line says after the mark. -/
def afterMark? (line : List Char) : Option (List Char) :=
  if mapMark.isPrefixOf line then some (line.drop mapMark.length) else none

/-- The source map that a script names, in the last line that begins with the mark. -/
def namedMap? (code : String) : Option String :=
  ((code.toList.splitOnP isLineEnd).filterMap afterMark?).getLast?.map String.ofList

/-- The name of the script of a source can stand in one line. -/
def FitsLine (source : Path) : Prop :=
  ∀ name ∈ source.scriptPath.fileName?, ∀ c ∈ name.toList, isLineEnd c = false

instance (source : Path) : Decidable (FitsLine source) :=
  haveI (name : String) : Decidable (∀ c ∈ name.toList, isLineEnd c = false) :=
    List.decidableBAll _ name.toList
  inferInstanceAs (Decidable (∀ name ∈ source.scriptPath.fileName?, ∀ c ∈ name.toList, _))

@[simp] theorem afterMark?_append (rest : List Char) : afterMark? (mapMark ++ rest) = some rest := by
  have hfront : mapMark.isPrefixOf (mapMark ++ rest) = true :=
    List.isPrefixOf_iff_prefix.mpr (List.prefix_append mapMark rest)
  rw [afterMark?, if_pos hfront, List.drop_left]

/-- The name of the script of a source, or nothing. -/
def scriptName (source : Path) : String := source.scriptPath.fileName?.getD ""

theorem mapComment_eq (p : Path) :
    mapComment p.text = "//# sourceMappingURL=" ++ scriptName p ++ ".map\n" := by
  unfold mapComment scriptName
  simp only [toString]

theorem toList_mapComment (p : Path) :
    (mapComment p.text).toList = mapMark ++ (scriptName p ++ ".map").toList ++ ['\n'] := by
  have hend : ".map\n".toList = ".map".toList ++ ['\n'] := by decide
  have hall : ∀ mark name : String, (mark ++ name ++ ".map\n").toList =
      mark.toList ++ (name ++ ".map").toList ++ ['\n'] := by
    intro mark name
    rw [String.toList_append, String.toList_append, String.toList_append, hend]
    simp only [List.append_assoc]
  rw [mapComment_eq]
  exact hall _ _

theorem exists_toList_withMapComment (p : Path) (code : String) :
    ∃ front, (withMapComment p.text code).toList =
      (front ++ '\n' :: (mapMark ++ (scriptName p ++ ".map").toList)) ++ '\n' :: [] := by
  unfold withMapComment
  rw [String.toList_append, toList_mapComment]
  split
  case isTrue hend =>
    obtain ⟨front, hfront⟩ := List.getLast?_eq_some_iff.mp hend
    exact ⟨front, by rw [hfront]; simp⟩
  case isFalse => exact ⟨code.toList, by rw [String.toList_append]; simp⟩

theorem FitsLine.of_mem {p : Path} (hp : FitsLine p) :
    ∀ c ∈ mapMark ++ (scriptName p ++ ".map").toList, isLineEnd c = false := by
  have hmark : mapMark.any isLineEnd = false := by decide
  have hmap : ".map".toList.any isLineEnd = false := by decide
  intro c hc
  rw [String.toList_append] at hc
  rcases List.mem_append.mp hc with hc | hc
  · exact Bool.eq_false_iff.mpr (List.any_eq_false.mp hmark c hc)
  · rcases List.mem_append.mp hc with hc | hc
    · unfold scriptName at hc
      cases hname : p.scriptPath.fileName? with
      | none => simp [hname] at hc
      | some name => exact hp name hname c (by simpa [hname] using hc)
    · exact Bool.eq_false_iff.mpr (List.any_eq_false.mp hmap c hc)

/-- A script that is made with a source map names its own name with `.map` after it. -/
theorem namedMap?_withMapComment {p : Path} (hp : FitsLine p) (code : String) :
    namedMap? (withMapComment p.text code) = some (scriptName p ++ ".map") := by
  obtain ⟨front, hfront⟩ := exists_toList_withMapComment p code
  have hnil : afterMark? [] = none := by decide
  unfold namedMap?
  rw [hfront, List.splitOnP_append_cons _ _ (by decide), List.splitOnP_append_cons _ _ (by decide),
    List.splitOnP_eq_singleton hp.of_mem, List.splitOnP_nil, List.filterMap_append,
    List.filterMap_append, List.filterMap_cons_none hnil,
    List.filterMap_cons_some (afterMark?_append _), List.filterMap_nil, List.append_nil,
    List.getLast?_concat, Option.map_some, String.ofList_toList]

end Script

/-! ## Pairs -/

/-- A source with its script and the source map, if there is one. -/
structure ScriptPair where
  source : Path
  script : OutputFile
  map : Option OutputFile

namespace ScriptPair

/-- The script and the map of a source, for a path of the script. -/
def ofScript (source script : Path) (code : String) (map : Option String) : ScriptPair :=
  ⟨source, ⟨script, code⟩, map.map (⟨Program.mapPath script, ·⟩)⟩

/-- The script and the map belong together; `itself` says that the source is the directory whose layout
is kept. -/
structure Matches (x : ScriptPair) (options : Options) (itself : Prop) : Prop where
  map_isSome : x.map.isSome = true ↔ options.isOn .sourceMap = true
  map_text : ∀ m ∈ x.map, m.path.text = x.script.path.text ++ ".map"
  /-- The script names its map, unless one of the two has no name and the other one has. -/
  named : Script.FitsLine x.source → ∀ m ∈ x.map,
    (Script.namedMap? x.script.content = m.path.fileName? ↔
      (x.source.scriptPath.fileName? = none ↔ itself))

end ScriptPair

/-- How the path of a script ends: as that of the script beside its source does, or in a slash if the
source is the directory whose layout is kept. -/
def EndsAsScript (script : Path) (x : List Char) (itself : Prop) : Prop :=
  (itself ∧ EndsIn script []) ∨ (¬ itself ∧ EndsIn script (scriptPiece x))

variable {p script : Path} {x : List Char} {itself : Prop}

/-- The path of a map ends as that of its script, and then in `.map`. -/
theorem Path.EndsIn.fileName?_mapPath {y : List Char} (h : EndsIn script y) :
    (Program.mapPath script).fileName? = some (String.ofList (y ++ ".map".toList)) := by
  obtain ⟨hloud, hname⟩ := isLoud_append_map h.noSlash
  exact (h.append (s := ".map") (by decide)).fileName? hloud hname

theorem scriptName_of_endsIn (hp : EndsIn p x) (hx : IsLoud x) :
    (scriptPiece x = up ∧ p.scriptPath.fileName? = none ∧ Script.scriptName p = "") ∨
      (scriptPiece x ≠ up ∧ p.scriptPath.fileName? = some (String.ofList (scriptPiece x)) ∧
        Script.scriptName p = String.ofList (scriptPiece x)) := by
  have hends := (hp.beside_scriptPath hx).endsIn
  unfold Script.scriptName
  by_cases hup : scriptPiece x = up
  · rw [hup] at hends
    exact .inl ⟨hup, hends.fileName?_up, by rw [hends.fileName?_up]; rfl⟩
  · have hname := hends.fileName? (isLoud_scriptPiece hx) hup
    exact .inr ⟨hup, hname, by rw [hname]; rfl⟩

/-- A comment names the map if the script has one name in both of their paths. -/
theorem named_iff (hp : EndsIn p x) (hx : IsLoud x) (hscript : EndsAsScript script x itself) :
    some (Script.scriptName p ++ ".map") = (Program.mapPath script).fileName? ↔
      (p.scriptPath.fileName? = none ↔ itself) := by
  have happend : ∀ cs : List Char,
      String.ofList (cs ++ ".map".toList) = String.ofList cs ++ ".map" := fun cs => by
    rw [String.ofList_append, String.ofList_toList]
  have hsame : ∀ cs ds : List Char,
      String.ofList cs ++ ".map" = String.ofList ds ++ ".map" ↔ cs = ds := fun cs ds => by
    rw [String.append_left_inj, String.ofList_inj]
  have hloud := isLoud_scriptPiece hx
  have hempty : "" = String.ofList [] := rfl
  rcases hscript with ⟨hitself, hends⟩ | ⟨hitself, hends⟩ <;>
    rcases scriptName_of_endsIn hp hx with ⟨hup, hnone, hname⟩ | ⟨hup, hsome, hname⟩ <;>
    rw [hends.fileName?_mapPath, happend, hname, Option.some.injEq]
  · rw [hempty]
    simp [hnone, hitself]
  · rw [hsame]
    simp [hsome, hitself, hloud.ne_nil]
  · rw [hempty, hsame]
    simp [hnone, hitself, hloud.ne_nil.symm]
  · simp [hsome, hitself]

theorem ScriptPair.matches_ofScript {compiler : Compiler} {source code : String} {options : Options}
    (hp : EndsIn p x) (hx : IsLoud x) (hscript : EndsAsScript script x itself)
    (hcode : (compiler.transpile source p.text options).code = some code) :
    (ofScript p script code (compiler.transpile source p.text options).sourceMap).Matches options
      itself := by
  obtain ⟨hmap, hcomment⟩ := Compiler.sourceMap_transpile hcode
  refine ⟨by rw [ofScript, Option.isSome_map, hmap], fun m hm => ?_, fun hfits m hm => ?_⟩ <;>
    obtain ⟨text, htext, rfl⟩ := Option.map_eq_some_iff.mp hm
  · rfl
  · obtain ⟨plain, rfl⟩ := hcomment (hmap.mp (by rw [htext]; rfl))
    have hnamed := Script.namedMap?_withMapComment hfits plain
    exact (Eq.congr_left hnamed).trans (named_iff hp hx hscript)

/-! ## The directory of all sources -/

namespace Program

variable {compiler : Compiler} {h : Host} {fs : List Path} {options : Options} {u : SourceUnit}

theorem components_commonDir (current dir : Path) :
    (commonDir current dir).components <+: current.components ∧
      (commonDir current dir).components <+: dir.components := by
  unfold commonDir
  cases hfind : current.ancestors.find? (dir.startsWith ·) with
  | none => exact ⟨List.nil_prefix, List.nil_prefix⟩
  | some a =>
      exact ⟨(above_of_mem_ancestors (List.mem_of_find?_eq_some hfind)).components,
        startsWith_iff.mp (List.find?_some hfind)⟩

theorem components_foldl_commonDir (current : Path) (dirs : List Path) :
    ∀ d ∈ current :: dirs, (dirs.foldl commonDir current).components <+: d.components := by
  induction dirs generalizing current with
  | nil => simp
  | cons dir dirs ih =>
      obtain ⟨hcurrent, hdir⟩ := components_commonDir current dir
      obtain ⟨hcommon, hdirs⟩ := List.forall_mem_cons.mp (ih (commonDir current dir))
      exact List.forall_mem_cons.mpr ⟨hcommon.trans hcurrent,
        List.forall_mem_cons.mpr ⟨hcommon.trans hdir, hdirs⟩⟩

/-- The directory of all sources is above each of them. -/
theorem components_sourceDir {p : Program} {dir : Path} (hdir : p.sourceDir = some dir)
    (hu : u ∈ p.sources) : dir.components <+: (dirOf u.path).components := by
  unfold sourceDir at hdir
  have hmem : dirOf u.path ∈ p.sources.map fun u => dirOf u.path := List.mem_map_of_mem hu
  unfold sources at hmem
  split at hdir
  case h_1 => cases hdir
  case h_2 current dirs hdirs =>
    rw [hdirs] at hmem
    exact Option.some.inj hdir ▸ components_foldl_commonDir current dirs _ hmem

/-- A source is not the directory of all sources. -/
theorem same_sourceDir {p : Program} {dir : Path} {x : List Char} (hdir : p.sourceDir = some dir)
    (hu : u ∈ p.sources) (hx : EndsIn u.path x) (hloud : IsLoud x) : u.path.same dir = false := by
  obtain ⟨q, hq, -, hall⟩ := hx.exists_parent hloud
  have habove := (components_sourceDir hdir hu).length_le
  have hdirOf : dirOf u.path = q := by rw [dirOf, hq, Option.getD_some]
  refine decide_eq_false fun hsame => ?_
  rw [hdirOf, ← hsame, hall, List.length_append, List.length_singleton] at habove
  omega

/-! ## Where scripts go -/

/-- The source is itself what the options name as the directory whose layout is kept. -/
def IsRootItself (options : Options) (p : Path) : Prop :=
  (options.text? .outDir).isSome = true ∧
    ∃ dir ∈ options.text? .rootDir, p.same (⟨dir⟩ : Path).normalize = true

theorem exists_endsIn_of_mem_units (hu : u ∈ (build compiler h fs options).units) :
    ∃ x, EndsIn u.path x ∧ IsLoud x := by
  obtain ⟨q, -, hunit⟩ := mem_units_build.mp hu
  rw [path_of_readUnit hunit]
  unfold readUnit at hunit
  split at hunit
  case h_1 hread => exact Host.endsIn_of_isFile (Host.isFile_of_readText hread)
  case h_2 => cases hunit

theorem same_rootDir {p : Program} {root : Path} {x : List Char} (hroot : p.rootDir = some root)
    (hout : p.outDir.isSome = true) (hu : u ∈ p.sources) (hx : EndsIn u.path x) (hloud : IsLoud x) :
    u.path.same root = true ↔ IsRootItself p.options u.path := by
  unfold outDir at hout
  rw [Option.isSome_map] at hout
  unfold rootDir at hroot
  unfold IsRootItself
  split at hroot
  case h_1 dir hdir => simp [hout, hdir, ← Option.some.inj hroot]
  case h_2 hdir =>
    rw [same_sourceDir hroot hu hx hloud]
    simp [hdir]

theorem endsAsScript {p : Program} {script : Path} {x : List Char} (hu : u ∈ p.sources)
    (hx : EndsIn u.path x) (hloud : IsLoud x)
    (hscript : scriptPath p.outDir p.rootDir u.path = .ok script) :
    EndsAsScript script x (IsRootItself p.options u.path) := by
  unfold scriptPath at hscript
  split at hscript
  case h_1 out root hout hroot =>
    have hsame := same_rootDir hroot (by rw [hout]; rfl) hu hx hloud
    split at hscript
    case h_2 => cases hscript
    case h_1 rel hrel =>
      cases hscript
      rcases hx.isLeft_of_stripPrefix? hloud hrel with ⟨hitself, rfl⟩ | ⟨hitself, hends⟩
      · -- nothing is left of the source
        have hempty : EndsIn (⟨""⟩ : Path).scriptPath [] := ⟨by simp, .inl rfl⟩
        exact .inl ⟨hsame.mp hitself, hempty.join out⟩
      · refine .inr ⟨fun hroot => ?_, (hends.beside_scriptPath hloud).endsIn.join out⟩
        rw [hsame.mpr hroot] at hitself
        cases hitself
  case h_2 hnot =>
    cases hscript
    refine .inr ⟨fun ⟨hout, dir, hdir, _⟩ => ?_, (hx.beside_scriptPath hloud).endsIn⟩
    obtain ⟨out, hout⟩ := Option.isSome_iff_exists.mp hout
    exact hnot (⟨out⟩ : Path).normalize (⟨dir⟩ : Path).normalize (by rw [outDir, hout]; rfl)
      (by rw [rootDir, Option.mem_def.mp hdir])

/-! ## Pairs of a program -/

def pair? (p : Program) (u : SourceUnit) : Option ScriptPair :=
  match unitOutput p.outDir p.rootDir u with
  | .ok (some (script, map)) => some ⟨u.path, script, map⟩
  | _ => none

/-- The scripts and maps of the sources, in their order. -/
def pairs (p : Program) : List ScriptPair := p.units.filterMap p.pair?

theorem pair?_eq_some {p : Program} {x : ScriptPair} (hx : p.pair? u = some x) :
    u.path.isDeclaration = false ∧ ∃ script code,
      scriptPath p.outDir p.rootDir u.path = .ok script ∧ u.output.code = some code ∧
        x = .ofScript u.path script code u.output.sourceMap := by
  unfold pair? at hx
  split at hx
  case h_2 => cases hx
  case h_1 script map hunit =>
    cases hx
    obtain ⟨hdecl, hscript, -⟩ := unitOutput_eq_ok hunit
    rw [unitOutput_of_scriptPath hdecl hscript] at hunit
    obtain ⟨code, hcode, heq⟩ := Option.map_eq_some_iff.mp (Except.ok.inj hunit)
    obtain ⟨hfile, hmap⟩ := Prod.mk.inj heq
    exact ⟨hdecl, script.path, code, hscript, hcode, by rw [ScriptPair.ofScript, hfile, hmap]⟩

theorem unitFiles_eq_pair? (p : Program) (u : SourceUnit) :
    p.unitFiles u = (p.pair? u).toList.flatMap fun x => x.map.toList ++ [x.script] := by
  unfold unitFiles pair?
  rcases unitOutput p.outDir p.rootDir u with e | (_ | ⟨script, map⟩) <;> simp

theorem flatMap_unitFiles_eq_pairs (p : Program) :
    p.units.flatMap p.unitFiles = p.pairs.flatMap fun x => x.map.toList ++ [x.script] := by
  unfold pairs
  induction p.units with
  | nil => rfl
  | cons u us ih =>
      rw [List.flatMap_cons, ih, unitFiles_eq_pair?]
      cases hx : p.pair? u with
      | none => simp [hx]
      | some x => simp [hx]

theorem emit_files_eq_pairs (p : Program) :
    p.emit.files = if p.emit.skipped = true then []
      else mapsLast (p.pairs.flatMap fun x => x.map.toList ++ [x.script]) := by
  rw [← flatMap_unitFiles_eq_pairs]
  unfold emit
  split
  · rfl
  · split
    · rfl
    · rw [if_neg (by simp)]
      refine congrArg mapsLast ?_
      rw [List.flatMap_map]
      rfl

theorem sublist_of_filterMap {α β : Type} {f : α → Option β} {g : β → α}
    (hg : ∀ a b, f a = some b → g b = a) (l : List α) : ((l.filterMap f).map g).Sublist l := by
  induction l with
  | nil => exact .slnil
  | cons a l ih =>
      cases hf : f a with
      | none => simpa [hf] using ih.cons a
      | some b => simpa [hf, hg a b hf] using ih.cons_cons a

/-- The pairs follow their sources. -/
theorem sublist_pairs_build : ((build compiler h fs options).pairs.map (·.source)).Sublist fs := by
  have hunits : (build compiler h fs options).units =
      fs.filterMap fun q => (readUnit compiler h options q).toOption := by
    simp [build, List.filterMap_map]
  have hpairs : (build compiler h fs options).pairs = fs.filterMap fun q =>
      (readUnit compiler h options q).toOption.bind (build compiler h fs options).pair? := by
    unfold pairs
    rw [hunits, List.filterMap_filterMap]
  rw [hpairs]
  refine sublist_of_filterMap (fun q x hx => ?_) fs
  obtain ⟨u, hu, hx⟩ := Option.bind_eq_some_iff.mp hx
  obtain ⟨-, script, code, -, -, rfl⟩ := pair?_eq_some hx
  exact path_of_readUnit (toOption_eq_some.mp hu)

/-! ## Order -/

theorem isMap_eq_false_of_endsIn {f : OutputFile} {x : List Char} (hx : IsLoud x)
    (h : EndsIn f.path (scriptPiece x)) : isMap f = false :=
  decide_eq_false (extension?_of_scriptPiece h hx)

theorem isMap_mapPath {script : Path} {x : List Char} (hx : IsLoud x)
    (h : EndsIn script (scriptPiece x)) (text : String) : isMap ⟨mapPath script, text⟩ = true := by
  have hends := h.append (s := ".map") (by decide)
  obtain ⟨hloud, hname⟩ := isLoud_append_map h.noSlash
  have hmap : ".map".toList = '.' :: "map".toList := by decide
  refine decide_eq_true ((hends.extension? hloud hname).trans ?_)
  rw [hmap, splitExtension_append (by decide), if_neg (isLoud_scriptPiece hx).ne_nil, Option.map_some,
    String.ofList_toList]

/-- Scripts come first if they are not taken for maps, and the maps are. -/
theorem mapsLast_pairs {xs : List ScriptPair} (hscript : ∀ x ∈ xs, isMap x.script = false)
    (hmap : ∀ x ∈ xs, ∀ m ∈ x.map, isMap m = true) :
    mapsLast (xs.flatMap fun x => x.map.toList ++ [x.script]) =
      xs.map (·.script) ++ xs.filterMap (·.map) := by
  unfold mapsLast
  rw [List.filter_flatMap, List.filter_flatMap, List.map_eq_flatMap, List.filterMap_eq_flatMap_toList]
  refine congrArg₂ (· ++ ·) (List.flatMap_congr fun x hx => ?_) (List.flatMap_congr fun x hx => ?_)
  all_goals
    have hscript := hscript x hx
    have hmap := hmap x hx
    cases hxm : x.map with
    | none => simp [hscript]
    | some m => simp [hscript, hmap m hxm]

theorem flatMap_pairs_perm (xs : List ScriptPair) :
    (xs.flatMap fun x => x.map.toList ++ [x.script]).Perm
      (xs.map (·.script) ++ xs.filterMap (·.map)) := by
  induction xs with
  | nil => exact .nil
  | cons x xs ih =>
      rw [List.flatMap_cons, List.map_cons, List.cons_append]
      cases hx : x.map with
      | none => simpa [hx] using ih
      | some m =>
          rw [List.filterMap_cons_some hx]
          refine (List.Perm.swap x.script m _).trans (.cons _ ?_)
          exact (ih.cons m).trans List.perm_middle.symm

/-- The scripts and maps that are written, in order unless a source is itself the root directory. -/
theorem emit_files_build
    (hemit : (build compiler h fs options).emit.skipped = false) :
    let xs := (build compiler h fs options).pairs
    (build compiler h fs options).emit.files.Perm (xs.map (·.script) ++ xs.filterMap (·.map)) ∧
      ((∀ x ∈ xs, ¬ IsRootItself options x.source) →
        (build compiler h fs options).emit.files = xs.map (·.script) ++ xs.filterMap (·.map)) := by
  intro xs
  rw [emit_files_eq_pairs, if_neg (by simp [hemit])]
  refine ⟨(mapsLast_perm _).trans (flatMap_pairs_perm xs), fun hroot => ?_⟩
  have hends : ∀ x ∈ xs, ∃ piece, IsLoud piece ∧ EndsIn x.script.path (scriptPiece piece) ∧
      ∀ m ∈ x.map, m.path = mapPath x.script.path := by
    intro x hx
    obtain ⟨u, hu, hpair⟩ := List.mem_filterMap.mp hx
    obtain ⟨hdecl, script, code, hscript, -, rfl⟩ := pair?_eq_some hpair
    obtain ⟨piece, hpiece, hloud⟩ := exists_endsIn_of_mem_units hu
    refine ⟨piece, hloud, ?_, fun m hm => ?_⟩
    · rcases endsAsScript (mem_sources.mpr ⟨hu, hdecl⟩) hpiece hloud hscript with ⟨hitself, -⟩ | ⟨-, hends⟩
      · exact absurd hitself (hroot _ hx)
      · exact hends
    · obtain ⟨text, -, rfl⟩ := Option.map_eq_some_iff.mp hm
      rfl
  refine mapsLast_pairs (fun x hx => ?_) fun x hx m hm => ?_
  · obtain ⟨piece, hloud, hscript, -⟩ := hends x hx
    exact isMap_eq_false_of_endsIn hloud hscript
  · obtain ⟨piece, hloud, hscript, hmap⟩ := hends x hx
    have hm' : m = ⟨mapPath x.script.path, m.content⟩ := by rw [← hmap m hm]
    rw [hm']
    exact isMap_mapPath hloud hscript _

theorem matches_of_mem_pairs {x : ScriptPair} (hx : x ∈ (build compiler h fs options).pairs) :
    x.Matches options (IsRootItself options x.source) := by
  obtain ⟨u, hu, hpair⟩ := List.mem_filterMap.mp hx
  obtain ⟨hdecl, script, code, hscript, hcode, rfl⟩ := pair?_eq_some hpair
  obtain ⟨piece, hpiece, hloud⟩ := exists_endsIn_of_mem_units hu
  have hends := endsAsScript (mem_sources.mpr ⟨hu, hdecl⟩) hpiece hloud hscript
  obtain ⟨q, -, hunit⟩ := mem_units_build.mp hu
  unfold readUnit at hunit
  split at hunit
  case h_2 => cases hunit
  case h_1 source hread =>
    cases hunit
    exact ScriptPair.matches_ofScript hpiece hloud hends hcode

end Program

end ScriptWorks

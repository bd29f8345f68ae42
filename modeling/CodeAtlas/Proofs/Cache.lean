import CodeAtlas.Index.Cache
import CodeAtlas.Proofs.Codec
import CodeAtlas.Proofs.Files

/-!
# A stored graph is loaded as it was

The text of a graph is read back as the graph (`ofText?_text`), for it is the text of a value whose
objects repeat no key. The file that was written holds that text, whatever links lead to it
(`content?_of_save`).
-/

namespace CodeAtlas.Index.Cache

open Json (WellKeyed)

variable {files files' : Files} {root : Path} {now : Moment} {g : Graph}

theorem wellKeyed_value (now : Moment) (g : Graph) : WellKeyed (value now g) := by
  simp [value, Node.wellKeyed_toJson, Edge.wellKeyed_toJson]

theorem parse?_text (now : Moment) (g : Graph) :
    Json.parse? (Text.unixLines (text now g)) = some (value now g) :=
  Json.parse?_unixLines_write (wellKeyed_value now g)

theorem ofText?_text (now : Moment) (g : Graph) :
    ofText? (Text.unixLines (text now g)) = some g := by
  rw [ofText?, parse?_text]
  have hnodes : elements? (value now g) "nodes" = some (g.nodes.map Node.toJson) := rfl
  have hedges : elements? (value now g) "edges" = some (g.edges.map Edge.toJson) := rfl
  simp only [Option.bind_eq_bind, Option.bind_some, hnodes, hedges,
    mapM_map_json Node.ofJson?_toJson, mapM_map_json Edge.ofJson?_toJson]
  rfl

theorem load?_of_content? (h : files.content? (path root) = some (text now g)) :
    load? files root = some g := by
  rw [load?, Files.text?, h, Option.map_some, Option.bind_some, ofText?_text]

theorem info?_of_content? (h : files.content? (path root) = some (text now g)) :
    info? files root = some ⟨.str now.toText, .int g.nodes.length, .int g.edges.length⟩ := by
  rw [info?, Files.text?, h, Option.map_some, Option.bind_some, parse?_text]
  rfl

/-! ## Storing and loading

What has to be there for a file to be written, and that it is found where it was put. -/

theorem directory_parts (root : Path) : (directory root).parts = root.parts ++ [".hammy"] := by
  have hname : Path.ofText ".hammy" = ⟨false, [".hammy"]⟩ := by decide
  simp [directory, Path.child, Path.append, hname]

theorem directory_parent (root : Path) : (directory root).parent.parts = root.parts := by
  rw [Path.parent, directory_parts, List.dropLast_concat]

theorem directory_name (root : Path) : (directory root).name = ".hammy" := by
  rw [Path.name, directory_parts, List.getLast?_concat, Option.getD_some]

theorem path_parts (root : Path) :
    (path root).parts = (directory root).parent.parts ++ [(directory root).name, "index.json"] := by
  have hname : Path.ofText "index.json" = ⟨false, ["index.json"]⟩ := by decide
  rw [directory_parent, directory_name]
  simp [path, Path.child, Path.append, hname, directory_parts]

/-- A graph can be stored in a project: its directory for that is there, and in it no directory has
the name of the file; or the directory of the project is there and has nothing of the name of the
other one. -/
def Storable (files : Files) (root : Path) : Prop :=
  files.isDir (directory root) = true ∧
      (∃ place, files.target? (path root) = some place ∧
        (files.root.at? place.reverse).any Entry.isDir = false) ∨
    files.isDir (directory root) = false ∧
      ∃ place, files.directory? root = some place ∧
        files.root.at? (place.reverse ++ [".hammy"]) = none

theorem save_eq_ok_iff : save files root now g = .ok files' ↔
    ∃ made, files.ensureDir (directory root) = .ok made ∧ made.writeText (path root)
      (text now g) = .ok files' := by
  rw [save]
  cases files.ensureDir (directory root) with
  | error f => simp [bind, Except.bind]
  | ok made => simp [bind, Except.bind]

theorem directory?_parent (files : Files) (root : Path) :
    files.directory? (directory root).parent = files.directory? root := by
  rw [Files.directory?, Files.place?, directory_parent]
  rfl

theorem exists_save_eq_ok_iff (files : Files) (root : Path) (now : Moment) (g : Graph) :
    (∃ files', save files root now g = .ok files') ↔ Storable files root := by
  simp only [save_eq_ok_iff, Files.ensureDir_eq_ok_iff, Files.writeText_eq_ok_iff,
    directory?_parent, directory_name]
  constructor
  · rintro ⟨files', made, ⟨hdir, rfl⟩ | ⟨hdir, -, place, hplace, hnone, rfl⟩, target, htarget,
      hnoDir, rfl⟩
    · exact .inl ⟨hdir, target, htarget, hnoDir⟩
    · exact .inr ⟨hdir, place, hplace, hnone⟩
  · rintro (⟨hdir, place, htarget, hnoDir⟩ | ⟨hdir, place, hplace, hnone⟩)
    · exact ⟨_, files, .inl ⟨hdir, rfl⟩, place, htarget, hnoDir, rfl⟩
    · -- in the directory that was made there is nothing yet
      have hparent := (directory?_parent files root).trans hplace
      have hname := directory_name root
      obtain ⟨htarget, hempty⟩ :=
        Files.target?_of_newDir (show "index.json" ≠ ".." by decide) (by decide)
        (by rw [hname]; decide) (path_parts root) hparent (by rwa [hname])
      have hfault :=
        Files.fault?_of_missing hplace (by decide) (by decide) (directory_parts root) hnone
      rw [hname] at htarget hempty
      exact ⟨_, _, .inr ⟨hdir, hfault, place, hplace, hnone, rfl⟩, _,
        htarget, by rw [hempty]; rfl, rfl⟩

theorem content?_of_save (h : save files root now g = .ok files') :
    files'.content? (path root) = some (text now g) := by
  obtain ⟨made, -, hwrite⟩ := save_eq_ok_iff.1 h
  exact Files.content?_of_writeText hwrite

theorem storable_of_content? {content : String} (h : files.content? (path root) = some content) :
    Storable files root := by
  have hparts : (path root).parts = (directory root).parts ++ ["index.json"] := by
    rw [path_parts, directory_parent, directory_name, directory_parts, List.append_assoc,
      List.singleton_append]
  exact .inl ⟨Files.isDir_of_content? (by decide) hparts h, Files.target?_of_content? h⟩

/-- What can be loaded can be looked at. -/
theorem load_eq_some_iff : load files root = .ok (some g) ↔ load? files root = some g := by
  rw [load, Files.look]
  constructor
  · cases files.fault? (path root) with
    | some f => intro hload; cases hload
    | none => exact fun hload => Except.ok.inj hload
  · intro hload
    obtain ⟨text, htext, -⟩ := Option.bind_eq_some_iff.1 hload
    obtain ⟨content, hcontent, -⟩ := Option.map_eq_some_iff.1 htext
    rw [Files.fault?_of_size? (Files.size?_of_content? hcontent), hload]
    rfl

/-- **A graph that was stored is the graph that is loaded**, its nodes and edges in their order, and
it can be stored wherever there is room for its file. What is reported about it without loading it
is true. -/
theorem load_save (files : Files) (root : Path) (now : Moment) (g : Graph) :
    ((∃ files', save files root now g = .ok files') ↔ Storable files root) ∧
      ∀ files', save files root now g = .ok files' →
        load files' root = .ok (some g) ∧
          info files' root = .ok
            (some ⟨.str now.toText, .int g.nodes.length, .int g.edges.length⟩) := by
  refine ⟨exists_save_eq_ok_iff files root now g, fun files' h => ?_⟩
  have hcontent := content?_of_save h
  refine ⟨load_eq_some_iff.2 (load?_of_content? hcontent), ?_⟩
  rw [info, Files.look_eq_ok_iff.2 (Files.fault?_of_size? (Files.size?_of_content? hcontent)),
    info?_of_content? hcontent]
  rfl

def oddGraph : Graph where
  nodes := [{
    id := "\"a\\\u0000", kind :=
      .endpoint, name := "\u00e9\r\n😀\u2028", loc := ⟨"/\t", -1, 10⟩, language := ""
    traits :=
      { visibility := some "", complexity := some (-7), parameters := ["\u007f", "\\u0041"] }
    history :=
      some { churnRate := 0, owners := ["\u0008"], changes := [⟨"", "ü", "\u000c", "{}[],:"⟩] } }]
  edges := [
    { source := "", target := "nan", relation := .networksTo, confidence := 0.1 },
    { source := "\ud7ff\ue000", target := "", relation := .inherits, isBridge := true,
      confidence := -0.0 }]

theorem load_save_oddGraph : ∃ files',
    save ⟨.dir [("p", .dir [])]⟩ ⟨true, ["p"]⟩ default oddGraph = .ok files' ∧
      load files' ⟨true, ["p"]⟩ = .ok (some oddGraph) ∧
      info files' ⟨true, ["p"]⟩ = .ok (some ⟨.str (default : Moment).toText, .int 1, .int 2⟩) := by
  obtain ⟨hstorable, hload⟩ := load_save ⟨.dir [("p", .dir [])]⟩ ⟨true, ["p"]⟩ default oddGraph
  obtain ⟨files', h⟩ := hstorable.2 (.inr ⟨by decide, ["p"], by decide, rfl⟩)
  exact ⟨files', h, hload files' h⟩

end CodeAtlas.Index.Cache

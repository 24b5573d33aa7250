import SpecLineage.Command.Run
import SpecLineage.Proofs.Canonical
import SpecLineage.Proofs.FileTree
import SpecLineage.Proofs.Lineage.Location

/-!
# 書き出した文書をもう一度解く

親への参照を消して JSON に書き出した文書は、書類に置いてもう一度解いても、同じ文字列になる。読み戻した文書は親を持た
ないので、どのような設定でもたどる参照はなく、診断も出ない。
-/

namespace SpecLineage

/-! ## 文書の文字列 -/

namespace Document

theorem parse_render_newline (d : Document) : parse .json (d.render .json ++ "\n") = .ok d := by
  have htext : d.render .json ++ "\n" =
      String.ofList (Json.write (.pretty 0) d.tree ++ ['\n']) := by
    rw [render, Json.pretty, String.ofList_append]
  have hdelimited : Json.Delimited ['\n'] := by
    intro c hc
    cases hc
    decide
  have hblank : Json.tokens ['\n'] = [] := by rw [Json.tokens_blank (by decide), Json.tokens]
  rw [parse, htext, tree, Json.read_write_append (.pretty 0) (FittingLayout.fits d) hdelimited hblank]
  simp only [Layout.ofData?_toData]

end Document

namespace Outcome

theorem parse_text (o : Outcome) : Document.parse .json (o.text .json true) = .ok o.flattened := by
  simp only [text, ↓reduceIte]
  split
  · exact Document.parse_write (.pretty 0) o.flattened
  · exact o.flattened.parse_render_newline

theorem files_of_read (o : Outcome) {read : String → Option ByteArray} {path : String}
    (hread : read path = some (o.text .json true).toUTF8) (hformat : Format.ofPath path = .ok .json) :
    Loader.files read path = .ok o.flattened := by
  have htext : String.fromUTF8? (o.text .json true).toUTF8 = some (o.text .json true) :=
    dif_pos (o.text .json true).isValidUTF8
  simp only [Loader.files, hread, hformat, htext, o.parse_text]

theorem text_of_resolved {o again : Outcome} (h : again.resolved = o.flattened) (flatten : Bool) :
    again.text .json flatten = o.text .json true := by
  have hflattened : again.flattened = again.resolved := by
    rw [flattened, h]
    rfl
  cases flatten <;> simp [text, hflattened, h]

end Outcome

/-! ## 書き出すもの -/

theorem Script.play_append_of_err (cwd : List String) (exit : Nat) {es : List Emission}
    (h : ∀ e ∈ es, ∃ text, e = .err text) (fs : List Emission) (a : Answer) :
    ∃ err, play cwd exit a (es ++ fs) = play cwd exit { a with err } fs := by
  induction es generalizing a with
  | nil => exact ⟨a.err, rfl⟩
  | cons e es ih =>
      obtain ⟨text, rfl⟩ := h e List.mem_cons_self
      exact ih (fun e he => h e (List.mem_cons_of_mem _ he)) { a with err := a.err ++ text }

namespace Outcome

theorem err_of_mem_report {o : Outcome} {e : Emission} (h : e ∈ o.report) :
    ∃ text, e = .err text := by
  obtain ⟨line, -, rfl⟩ := List.mem_map.mp h
  exact ⟨_, rfl⟩

theorem err_of_mem_ending {o : Outcome} {e : Emission} (h : e ∈ o.ending.emissions) :
    ∃ text, e = .err text := by
  unfold ending at h
  split at h
  · cases h
  · exact ⟨_, List.mem_singleton.mp h⟩

end Outcome

/-- 書類に書かない `resolve` が標準出力に書くのは、文書の文字列だけである。 -/
theorem Command.out_emit (a : Answer) (cwd : List String) (file : String) (name : Option String)
    (flatten digest : Bool) (format : Format) (o : Outcome) (exit : Nat) :
    (Script.play cwd exit a
        (emit file (.resolve name none flatten digest) format o).emissions).out =
      a.out ++ o.text format flatten := by
  simp only [emit, Script.after, List.append_assoc]
  obtain ⟨err, hreport⟩ := Script.play_append_of_err cwd exit
    (fun e he => o.err_of_mem_report he) _ a
  rw [hreport, List.singleton_append, Script.play, ← List.append_nil (_ ++ o.ending.emissions)]
  have hrest : ∀ e ∈ (if digest = true then [.err s!"digest: {o.digest}\n"] else []) ++
      o.ending.emissions, ∃ text, e = .err text := by
    intro e he
    rcases List.mem_append.mp he with he | he
    · split at he
      · exact ⟨_, List.mem_singleton.mp he⟩
      · cases he
    · exact o.err_of_mem_ending he
  obtain ⟨err', hplay⟩ := Script.play_append_of_err cwd exit hrest [] _
  rw [hplay, Script.play]

/-! ## 命令の実行 -/

/-- 書類の木の、置き場所 `cwd` にいる。 -/
def FileTree.workplace (t : FileTree) (cwd : List String) : Workplace :=
  { cwd := ⟨true, cwd⟩, read? := t.read? cwd }

namespace Workplace

variable {w : Workplace}

theorem settings_congr {w' : Workplace} (hcwd : w'.cwd = w.cwd)
    (h : ∀ path ∈ settingsPaths w.cwd, w'.read? path = w.read? path) : w'.settings = w.settings := by
  have hfind : ∀ paths : List String, (∀ path ∈ paths, w'.read? path = w.read? path) →
      (paths.findSome? fun path => (w'.read? path).map (path, ·)) =
        paths.findSome? fun path => (w.read? path).map (path, ·) := by
    intro paths hpaths
    induction paths with
    | nil => rfl
    | cons path paths ih =>
        rw [List.findSome?_cons, List.findSome?_cons, hpaths path List.mem_cons_self,
          ih fun p hp => hpaths p (List.mem_cons_of_mem _ hp)]
  rw [settings, settings, hcwd, hfind _ h]

theorem getLast?_locate (hrooted : w.cwd.rooted = true) {file : String} {before : List String}
    {name : String} (hnames : (Path.ofString file).names = before ++ [name]) (hname : name ≠ "..") :
    (Path.ofString (w.locate file)).names.getLast? = some name := by
  obtain ⟨hfiller, hslash⟩ := Path.clean_ofString file name (by simp [hnames])
  obtain ⟨init, hjoin⟩ : ∃ init, w.cwd.join (Path.ofString file) = ⟨true, init ++ [name]⟩ := by
    cases hfile : (Path.ofString file).rooted with
    | true =>
        refine ⟨before, ?_⟩
        rw [Path.join, if_pos hfile]
        exact Path.ext_names hfile hnames
    | false =>
        refine ⟨w.cwd.names ++ before, ?_⟩
        rw [Path.join_of_relative _ hfile, hrooted, hnames, List.append_assoc]
  have hlast := Path.getLast?_ofString_toString init hfiller hslash
  obtain ⟨front, hfront⟩ := List.getLast?_eq_some_iff.mp hlast
  rw [locate, Location.ofString_normalize, hjoin, Path.names_normal_concat hfront hname,
    List.getLast?_concat]

theorem extension?_locate (w : Workplace) (hrooted : w.cwd.rooted = true) {file : String}
    (hfile : (Path.ofString file).extension?.isSome) :
    (Path.ofString (w.locate file)).extension? = (Path.ofString file).extension? := by
  obtain ⟨e, he⟩ := Option.isSome_iff_exists.mp hfile
  obtain ⟨before, last, hnames, hlast⟩ := Path.exists_names_of_extension? he
  refine Path.extension?_congr ?_
  rw [getLast?_locate hrooted hnames hlast, hnames, List.getLast?_concat]

theorem rooted_locate (w : Workplace) (hrooted : w.cwd.rooted = true) (file : String) :
    (Path.ofString (w.locate file)).rooted = true := by
  have hjoin : (w.cwd.join (Path.ofString file)).rooted = true := by
    rw [Path.join]
    split
    · assumption
    · exact hrooted
  rw [locate, Location.ofString_normalize]
  exact Path.rooted_ofString_toString hjoin

end Workplace

theorem getLast?_of_mem_settingsPaths {cwd : List String} {path : String}
    (h : path ∈ settingsPaths ⟨true, cwd⟩) :
    (Path.ofString path).names.getLast? = some Settings.fileName := by
  obtain ⟨n, -, rfl⟩ := List.mem_map.mp h
  exact Path.getLast?_ofString_toString (cwd.take n) (by decide +kernel) (by decide +kernel)

theorem FileTree.Written.settings_eq {t t' : FileTree} {path : String} {bytes : ByteArray}
    {before : List String} {name : String} (h : t.Written path bytes before name t')
    (cwd : List String) (htoml : (Path.ofString path).extension? ≠ some "toml") :
    (t'.workplace cwd).settings = (t.workplace cwd).settings := by
  refine Workplace.settings_congr rfl fun other hother => h.read?_of_ne ?_ cwd
  rw [getLast?_of_mem_settingsPaths hother]
  intro hname
  have hsame : (Path.ofString path).extension? = Path.extension? ⟨false, [Settings.fileName]⟩ :=
    Path.extension?_congr (by rw [h.names, List.getLast?_concat, ← hname]; rfl)
  exact htoml (hsame.trans (by decide +kernel))

theorem FileTree.out_run (t : FileTree) (cwd : List String) {words : List String} {c : Command}
    {name : String} {flatten digest : Bool} {format : Format}
    (hwords : Command.ofWords? words = some (.run c))
    (haction : c.action = .resolve (some name) none flatten digest)
    (hname : Format.ofName name = .ok format) (hout : (t.run cwd words).out ≠ "") :
    ∃ settings o, (t.workplace cwd).settings = .ok settings ∧
      (t.run cwd words).out = Outcome.text o format flatten := by
  have hrun : (t.run cwd words).out = (Script.play cwd (c.execute (t.workplace cwd)).script.exit
      { exit := (c.execute (t.workplace cwd)).script.exit, files := t }
      (c.execute (t.workplace cwd)).script.emissions).out := by
    simp only [FileTree.run, Workplace.run, hwords]
    rfl
  rw [hrun] at hout ⊢
  cases hsettings : (t.workplace cwd).settings with
  | error message =>
      exact absurd (by simp [Command.execute, hsettings, Script.failing, Script.play]) hout
  | ok settings =>
      have hformat : c.format settings = .ok format := by
        simp [Command.format, haction, Settings.format, hname]
      cases hresolve : (t.workplace cwd).resolve c.file (settings.options c.overrides) with
      | error message =>
          exact absurd (by simp [Command.execute, hsettings, hformat, hresolve, Script.failing,
            Script.play]) hout
      | ok r =>
          refine ⟨settings, r.outcome, rfl, ?_⟩
          simp only [Command.execute, hsettings, hformat, hresolve, haction, Command.out_emit,
            String.empty_append]

/-- 親のない文書を置いた書類を解けば、診断もなく、その文書だけを書き出す。 -/
theorem FileTree.run_of_no_parents (t : FileTree) (cwd : List String) {words : List String}
    {c : Command} {name : String} {flatten : Bool} {format : Format} {settings : Settings}
    {d : Document} (hwords : Command.ofWords? words = some (.run c))
    (haction : c.action = .resolve (some name) none flatten false)
    (hname : Format.ofName name = .ok format) (hsettings : (t.workplace cwd).settings = .ok settings)
    (hload : Loader.files (t.workplace cwd).read? ((t.workplace cwd).locate c.file) = .ok d)
    (hd : d.hasParents = false) :
    ∃ o : Outcome, o.resolved = d ∧
      t.run cwd words = { exit := 0, out := o.text format flatten, err := "", files := t } := by
  have hformat : c.format settings = .ok format := by
    simp [Command.format, haction, Settings.format, hname]
  let o : Outcome :=
    { valid := true, errors := [], warnings := [], resolved := d, ancestors := [], suppressed := 0 }
  have hresolve : (t.workplace cwd).resolve c.file (settings.options c.overrides) =
      .ok { outcome := o, cache := none, requests := [] } := by
    simp [Workplace.resolve, hload, Resolver.resolve, hd, o]
  have hexecute : (c.execute (t.workplace cwd)).script = ⟨[.out (o.text format flatten)], 0⟩ := by
    simp [Command.execute, hsettings, hformat, hresolve, haction, Command.emit, Script.after,
      Outcome.report, Outcome.ending, Outcome.diagnostics, Outcome.suppressedLines, o]
  refine ⟨o, rfl, ?_⟩
  simp only [FileTree.run, Workplace.run, hwords]
  rw [FileTree.workplace] at hexecute
  simp only [hexecute, Script.play, String.empty_append]

/-- 書き出した文書を書類に置いて解き直しても、同じ文字列になる。誤りがあっても書き出される文書であればよい。書類の名の
拡張子は `json` であり、解き直すときの設定は問わない。 -/
theorem flattened_json_reprinted (t t' : FileTree) (cwd words words' : List String)
    (c c' : Command) {name name' : String} {digest flatten : Bool}
    (hwords : Command.ofWords? words = some (.run c))
    (haction : c.action = .resolve (some name) none true digest)
    (hname : Format.ofName name = .ok .json) (hprinted : (t.run cwd words).out ≠ "")
    (hextension : (Path.ofString c'.file).extension?.map String.toLower = some "json")
    (hsaved : t.write cwd ((t.workplace cwd).locate c'.file) (t.run cwd words).out.toUTF8 = .ok t')
    (hwords' : Command.ofWords? words' = some (.run c'))
    (haction' : c'.action = .resolve (some name') none flatten false)
    (hname' : Format.ofName name' = .ok .json) :
    (t'.run cwd words').exit = 0 ∧ (t'.run cwd words').err = "" ∧
      (t'.run cwd words').out = (t.run cwd words).out := by
  obtain ⟨settings, o, hsettings, hout⟩ := t.out_run cwd hwords haction hname hprinted
  obtain ⟨e, he, hlower⟩ := Option.map_eq_some_iff.mp hextension
  have hsame : (Path.ofString ((t.workplace cwd).locate c'.file)).extension? = some e := by
    rw [← he]
    exact (t.workplace cwd).extension?_locate rfl (by simp [he])
  have hrooted := (t.workplace cwd).rooted_locate rfl c'.file
  have hup : ".." ∉ (Path.ofString ((t.workplace cwd).locate c'.file)).names := by
    rw [Workplace.locate, Location.ofString_normalize] at hrooted ⊢
    exact Path.notMem_normal_of_rooted hrooted
  obtain ⟨before, last, hwritten⟩ := FileTree.written_of_write hrooted hup hsaved
  have hsettings' : (t'.workplace cwd).settings = .ok settings := by
    rw [← hsettings]
    refine hwritten.settings_eq cwd fun htoml => ?_
    cases hsame.symm.trans htoml
    exact absurd hlower (by decide +kernel)
  have hload : Loader.files (t'.workplace cwd).read? ((t'.workplace cwd).locate c'.file) =
      .ok o.flattened := by
    refine o.files_of_read (hout ▸ hwritten.read?_self cwd) ?_
    have hplace : (t'.workplace cwd).locate c'.file = (t.workplace cwd).locate c'.file := rfl
    rw [hplace, Format.ofPath, hsame, Option.bind_some, hlower]
    rfl
  obtain ⟨again, hresolved, hrun⟩ := t'.run_of_no_parents cwd hwords' haction' hname' hsettings'
    hload rfl
  rw [hrun, hout]
  exact ⟨rfl, rfl, Outcome.text_of_resolved hresolved flatten⟩

/-- 親の一つを読み込めず、失敗に終わる解決の結果も、解き直せば失敗せずに同じ文字列になる。 -/
theorem flattened_json_reprinted_partial :
    let t : FileTree := ⟨[
      (["w", "speclink.toml"], .file "[resolve]\nmax_depth = 0\n".toUTF8),
      (["w", "base.json"], .file "\x7b\"metadata\":\x7b\"title\":\"t\"\x7d\x7d".toUTF8),
      (["w", "child.json"], .file ("\x7b\"extends\":[\"base.json\",\"gone.json\"]," ++
        "\"business_rules\":[\x7b\"id\":\"r\"\x7d,\x7b\"id\":\"r\"\x7d]\x7d").toUTF8)]⟩
    let words := ["resolve", "child.json", "--strategy=append", "--flatten", "--format", "json"]
    let words' := ["resolve", "./out.JSON", "--format=JSON", "--max-depth", "0", "--allow-circular"]
    (t.run ["w"] words).exit = 1 ∧
      ∃ t', t.write ["w"] ((t.workplace ["w"]).locate "./out.JSON")
          (t.run ["w"] words).out.toUTF8 = .ok t' ∧
        (t'.run ["w"] words').exit = 0 ∧ (t'.run ["w"] words').err = "" ∧
        (t'.run ["w"] words').out = (t.run ["w"] words).out := by
  intro t words words'
  obtain ⟨hexit, hprinted⟩ : (t.run ["w"] words).exit = 1 ∧ (t.run ["w"] words).out ≠ "" := by
    decide +kernel
  obtain ⟨t', hsaved⟩ : ∃ t', t.write ["w"] ((t.workplace ["w"]).locate "./out.JSON")
      (t.run ["w"] words).out.toUTF8 = .ok t' := by
    have hplace : (t.workplace ["w"]).locate "./out.JSON" = "/w/out.JSON" := by decide +kernel
    rw [hplace]
    generalize (t.run ["w"] words).out.toUTF8 = bytes
    exact ⟨t.insert ["w", "out.JSON"] bytes, rfl⟩
  have hjson : Format.ofName "json" = .ok .json ∧ Format.ofName "JSON" = .ok .json := by
    decide +kernel
  refine ⟨hexit, t', hsaved, ?_⟩
  exact flattened_json_reprinted t t' ["w"] words words'
    ⟨"child.json", { strategy := some .append }, .resolve (some "json") none true false⟩
    ⟨"./out.JSON", { maxDepth := some 0, allowCircular := some true },
      .resolve (some "JSON") none false false⟩
    (by decide +kernel) rfl hjson.1 hprinted (by decide +kernel) hsaved (by decide +kernel) rfl
    hjson.2

end SpecLineage

import SpecLineage.Format
import SpecLineage.Proofs.Toml.Reading
import SpecLineage.Proofs.Yaml.Reading

/-!
# YAML と TOML の文書

文書の形は、どの書式でも書ける形である。したがって、どの文書も、YAML でも TOML でも失うものなく書ける。
-/

namespace SpecLineage

namespace Document

theorem isRegular_shape : (Layout.shape Document).isRegular = true := by decide

/-- 文書には必ず項目がある。管理情報はいつも書く。 -/
theorem exists_tree_eq_record (d : Document) : ∃ m ms, d.tree = .record (m :: ms) :=
  ⟨_, _, rfl⟩

theorem parse_yaml (d : Document) : parse .yaml (d.render .yaml) = .ok d := by
  obtain ⟨m, ms, htree⟩ := d.exists_tree_eq_record
  have hread : Yaml.read (Layout.shape Document) (Yaml.write d.tree) = some (Layout.toData d) :=
    Yaml.read_write (FittingLayout.fits d) isRegular_shape htree
  rw [parse, render, hread]
  simp only [Option.bind_some, Layout.ofData?_toData]

theorem parse_toml (d : Document) : parse .toml (d.render .toml) = .ok d := by
  have hread : Toml.read (Layout.shape Document) (Toml.write d.tree) = some (Layout.toData d) :=
    Toml.read_write (FittingLayout.fits d) (by decide) (by decide)
  rw [parse, render, hread]
  simp only [Option.bind_some, Layout.ofData?_toData]

end Document

/-- どの文書も、YAML に書いて読めば元の文書になり、TOML に書いて読めば元の文書になる。 -/
theorem yaml_toml_lossless (d : Document) :
    Document.parse .yaml (d.render .yaml) = .ok d ∧
      Document.parse .toml (d.render .toml) = .ok d :=
  ⟨d.parse_yaml, d.parse_toml⟩

end SpecLineage

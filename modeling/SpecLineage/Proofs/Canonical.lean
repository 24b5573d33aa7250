import SpecLineage.Format
import SpecLineage.Digest
import SpecLineage.Proofs.Json.Reading

/-!
# 文書の正準な書きかた

文書を JSON に書いて読めば元の文書に戻る。したがって詰めた JSON のバイト列は文書を一つに定め、指紋が異なる文書を
取り違えるのは、SHA-256 が衝突するときに限る。
-/

namespace SpecLineage

/-! ## バイト列の指紋 -/

namespace Digest

theorem toList_loop_eq (bs : ByteArray) (i : Nat) (r : List UInt8) :
    ByteArray.toList.loop bs i r = r.reverse ++ bs.data.toList.drop i := by
  fun_induction ByteArray.toList.loop bs i r with
  | case1 i r hi ih =>
      have hlength : i < bs.data.toList.length := hi
      have hget : bs.get! i = bs.data.toList[i] := getElem!_pos bs.data i hi
      rw [ih, List.reverse_cons, List.append_assoc, List.singleton_append,
        List.drop_eq_getElem_cons hlength, hget]
  | case2 i r hi =>
      have hlength : bs.data.toList.length ≤ i := Nat.le_of_not_lt hi
      rw [List.drop_eq_nil_of_le hlength, List.append_nil]

theorem toList_injective {a b : ByteArray} (h : a.toList = b.toList) : a = b := by
  have hdata (bs : ByteArray) : bs.toList = bs.data.toList := toList_loop_eq bs 0 []
  rw [hdata, hdata] at h
  exact ByteArray.ext (Array.toList_inj.mp h)

theorem hexDigits_injective {b c : UInt8}
    (h : Hex.digits Hex.lower 2 b.toNat = Hex.digits Hex.lower 2 c.toNat) : b = c := by
  have hvalue := congrArg Hex.ofDigits? h
  rw [Hex.ofDigits?_digits, Hex.ofDigits?_digits, Option.some.injEq] at hvalue
  have hb := b.toNat_lt
  have hc := c.toNat_lt
  exact UInt8.toNat_inj.mp (by omega)

/-- 一バイトは二桁なので、つないだ桁から元のバイト列が決まる。 -/
theorem flatMap_hexDigits_injective : ∀ {bs cs : List UInt8},
    bs.flatMap (fun b => Hex.digits Hex.lower 2 b.toNat) =
      cs.flatMap (fun b => Hex.digits Hex.lower 2 b.toNat) → bs = cs
  | [], [], _ => rfl
  | [], _ :: _, h => nomatch h
  | _ :: _, [], h => nomatch h
  | b :: bs, c :: cs, h => by
      rw [List.flatMap_cons, List.flatMap_cons] at h
      obtain ⟨hhead, htail⟩ := List.append_inj h (by rw [Hex.length_digits, Hex.length_digits])
      rw [hexDigits_injective hhead, flatMap_hexDigits_injective htail]

theorem ofBytes_eq_iff {m n : List UInt8} :
    ofBytes m = ofBytes n ↔ Sha256.hash m = Sha256.hash n := by
  refine ⟨fun h => flatMap_hexDigits_injective (String.ofList_injective h), fun h => ?_⟩
  rw [ofBytes, ofBytes, h]

end Digest

/-- 異なるバイト列の SHA-256 が等しい。 -/
def Sha256.Collision (m n : List UInt8) : Prop := m ≠ n ∧ hash m = hash n

/-! ## 文書の JSON -/

namespace Document

/-- 指紋をとるバイト列。 -/
def canonicalBytes (d : Document) : ByteArray := (Json.compact d.tree).toUTF8

theorem parse_write (style : Json.Style) (d : Document) :
    parse .json (String.ofList (Json.write style d.tree)) = .ok d := by
  rw [parse, tree, Json.read_write style (FittingLayout.fits d)]
  simp only [Layout.ofData?_toData]

theorem fromUTF8?_canonicalBytes (d : Document) :
    String.fromUTF8? d.canonicalBytes = some (Json.compact d.tree) :=
  dif_pos (Json.compact d.tree).isValidUTF8

theorem canonicalBytes_inj {d e : Document} : d.canonicalBytes = e.canonicalBytes ↔ d = e := by
  refine ⟨fun h => ?_, congrArg canonicalBytes⟩
  have htext := congrArg String.fromUTF8? h
  rw [fromUTF8?_canonicalBytes, fromUTF8?_canonicalBytes, Option.some.injEq] at htext
  have hd := d.parse_write .compact
  rw [← Json.compact, htext, Json.compact, e.parse_write, Except.ok.injEq] at hd
  exact hd.symm

end Document

/-- 文書の JSON は失うものがなく、正準である。広げた JSON も、指紋をとる詰めた JSON のバイト列も、元の文書に読める。
指紋が等しい異なる文書は、SHA-256 の衝突を与える。 -/
theorem json_lossless :
    (∀ d : Document, Document.parse .json (d.render .json) = .ok d) ∧
    (∀ d : Document, Digest.ofDocument d = Digest.ofBytes d.canonicalBytes.toList ∧
      ∃ text, String.fromUTF8? d.canonicalBytes = some text ∧ Document.parse .json text = .ok d) ∧
    (∀ d e : Document, d.canonicalBytes = e.canonicalBytes ↔ d = e) ∧
    (∀ d e : Document, Digest.ofDocument d = Digest.ofDocument e ↔
      d = e ∨ Sha256.Collision d.canonicalBytes.toList e.canonicalBytes.toList) := by
  refine ⟨Document.parse_write (.pretty 0), fun d => ⟨rfl, ?_⟩,
    fun d e => Document.canonicalBytes_inj, fun d e => ⟨fun h => ?_, ?_⟩⟩
  · exact ⟨_, d.fromUTF8?_canonicalBytes, d.parse_write .compact⟩
  · by_cases hde : d = e
    · exact .inl hde
    · refine .inr ⟨fun hbytes => hde ?_, Digest.ofBytes_eq_iff.mp h⟩
      exact Document.canonicalBytes_inj.mp (Digest.toList_injective hbytes)
  · rintro (rfl | ⟨-, hhash⟩)
    · rfl
    · exact Digest.ofBytes_eq_iff.mpr hhash

end SpecLineage

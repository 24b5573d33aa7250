import SpecLineage.Text.Hex

/-!
# 十進の数字

自然数を書いた十進の数字の列。余計な零で始まらず、読めば元の値に戻る。
-/

namespace SpecLineage

theorem head?_toDigits {n : Nat} (h : 0 < n) : (Nat.toDigits 10 n).head? ≠ some '0' := by
  induction n using Nat.base_induction 10 (by decide) with
  | single m hm =>
      rw [Nat.toDigits_of_lt_base hm, List.head?_cons, Ne, Option.some.injEq,
        Nat.digitChar_eq_zero]
      omega
  | digit m k hk hm ih =>
      rw [← Nat.toDigits_append_toDigits (by decide) hm hk, List.head?_append,
        Option.or_of_isSome (by simp)]
      exact ih hm

theorem isDigit_of_mem_toDigits {n : Nat} {c : Char} (h : c ∈ Nat.toDigits 10 n) :
    c.isDigit = true := Nat.isDigit_of_mem_toDigits (by decide) (by decide) h

/-- 数字の列は、零だけから成るか、零でない数字で始まる。 -/
theorem exists_toDigits_eq_cons (n : Nat) : ∃ c cs, Nat.toDigits 10 n = c :: cs ∧
    c.isDigit = true ∧ (c = '0' → cs = []) := by
  obtain ⟨c, cs, hdigits⟩ := List.exists_cons_of_ne_nil (Nat.toDigits_ne_nil (n := n) (b := 10))
  have hc : c.isDigit = true := isDigit_of_mem_toDigits (n := n) (hdigits ▸ List.mem_cons_self)
  refine ⟨c, cs, hdigits, hc, fun hzero => ?_⟩
  rcases Nat.eq_zero_or_pos n with rfl | hpos
  · exact (List.cons.inj hdigits).2.symm
  · exact absurd (by rw [hdigits, hzero]; rfl) (head?_toDigits hpos)

theorem Hex.value?_of_isDigit {c : Char} (h : c.isDigit = true) :
    Hex.value? c = some (c.toNat - '0'.toNat) ∧ c.toNat - '0'.toNat < 10 := by
  have hrange : '0' ≤ c ∧ c ≤ '9' := by
    simpa only [Char.isDigit, Bool.and_eq_true, decide_eq_true_eq, ge_iff_le, Char.le_def] using h
  refine ⟨if_pos hrange, ?_⟩
  have hle : c.toNat ≤ '9'.toNat := hrange.2
  simp only [Char.reduceToNat] at hle ⊢
  omega

end SpecLineage

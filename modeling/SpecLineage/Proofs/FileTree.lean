import SpecLineage.FileTree
import SpecLineage.Proofs.Sequence
import SpecLineage.Proofs.Path

/-!
# 書いた書類を読む

根から `..` を通らずに書いた書類は、同じ経路で読めば書いた中身になる。最後の名の違う書類は、読める中身も、読めない
ことも変わらない。
-/

namespace SpecLineage.FileTree

variable {t t' : FileTree} {names : List String} {bytes : ByteArray}

/-! ## 書類を置いた木 -/

/-- `names` の途中の名は、どれも置き場所を指す。 -/
def Leads (t : FileTree) (names : List String) : Prop :=
  ∀ ns, ns ≠ [] → ns <+: names → ns ≠ names → t.entry? ns = some .directory

theorem entry?_insert (h : t.Leads names) (hne : names ≠ []) (ns : List String) :
    FileTree.entry? (t.insert names bytes) ns =
      if ns = names then some (.file bytes) else t.entry? ns := by
  by_cases hns : ns = names
  · subst hns
    simp [ entry?, insert]
  · have hlookup : (t.insert names bytes).entries.lookup ns = t.entries.lookup ns := by
      rw [insert, List.lookup_cons, beq_false_of_ne hns]
      exact List.lookup_filter_of_ne hns t.entries
    rw [if_neg hns]
    simp only [ entry?, hlookup]
    cases hfound : t.entries.lookup ns with
    | some e => rfl
    | none =>
        by_cases hempty : ns = []
        · simp [hempty]
        · by_cases hprefix : ns <+: names
          · -- 途中の名は、書類を置く前から置き場所を指している。
            have hdirectory := h ns hempty hprefix hns
            rw [ entry?, hfound] at hdirectory
            simp only [insert, List.any_cons, List.isPrefixOf_iff_prefix.mpr hprefix, Bool.true_or,
              Bool.or_true, ↓reduceIte]
            exact hdirectory.symm
          · have hnot : ns.isPrefixOf names = false := by
              rw [Bool.eq_false_iff]
              exact fun hp => hprefix (List.isPrefixOf_iff_prefix.mp hp)
            have hany : (t.insert names bytes).entries.any (fun e => ns.isPrefixOf e.1) =
                t.entries.any fun e => ns.isPrefixOf e.1 := by
              rw [insert, List.any_cons, hnot, Bool.false_or, List.any_filter]
              refine List.any_congr rfl fun e => ?_
              by_cases he : e.1 = names
              · simp [he, hnot]
              · simp [he]
            simp only [hany]

/-- 置き場所でない名に書類を置いても、途中の名としてたどれる先は変わらない。 -/
theorem enter_insert (h : t.Leads names) (hne : names ≠ [])
    (hput : t.entry? names ≠ some .directory) (dir : List String) (name : String) :
    ((t.insert names bytes).enter dir name).toOption = (t.enter dir name).toOption := by
  unfold enter
  split
  · rfl
  · split
    · rfl
    · rw [entry?_insert h hne]
      by_cases hname : dir ++ [name] = names
      · rw [if_pos hname, hname]
        cases hentry : t.entry? names with
        | none => rfl
        | some e =>
            cases e with
            | file _ => rfl
            | directory => exact absurd hentry hput
      · rw [if_neg hname]

theorem foldlM_enter_insert (h : t.Leads names) (hne : names ≠ [])
    (hput : t.entry? names ≠ some .directory) (ns dir : List String) :
    (ns.foldlM (t.insert names bytes).enter dir).toOption = (ns.foldlM t.enter dir).toOption := by
  induction ns generalizing dir with
  | nil => rfl
  | cons name ns ih =>
      have hstep : ((t.insert names bytes).enter dir name).toOption = (t.enter dir name).toOption :=
        enter_insert h hne hput dir name
      rw [List.foldlM_cons, List.foldlM_cons]
      cases hold : t.enter dir name with
      | error _ =>
          cases hnew : (t.insert names bytes).enter dir name with
          | error _ => rfl
          | ok _ => simp [hold, hnew, Except.toOption] at hstep
      | ok next =>
          cases hnew : (t.insert names bytes).enter dir name with
          | error _ => simp [hold, hnew, Except.toOption] at hstep
          | ok next' =>
              obtain rfl : next' = next := by simpa [hold, hnew, Except.toOption] using hstep
              exact ih next'

/-! ## 経路をたどる -/

/-- `..` のない名をたどれれば、着く先はその名の列であり、途中の名はどれも置き場所を指す。 -/
theorem foldlM_enter {ns dir dir' : List String} (hup : ".." ∉ ns)
    (h : ns.foldlM t.enter dir = .ok dir') :
    dir' = dir ++ ns ∧
      ∀ ms, ms ≠ [] → ms <+: ns → t.entry? (dir ++ ms) = some .directory := by
  induction ns generalizing dir with
  | nil =>
      cases h
      exact ⟨(List.append_nil dir').symm, fun ms hms hp => absurd (List.prefix_nil.mp hp) hms⟩
  | cons name ns ih =>
      rw [List.mem_cons, not_or] at hup
      rw [List.foldlM_cons] at h
      cases henter : t.enter dir name with
      | error fault => rw [henter] at h; cases h
      | ok next =>
          rw [henter] at h
          have hnext : next = dir ++ [name] ∧ t.entry? (dir ++ [name]) = some .directory := by
            rw [enter, if_neg (Ne.symm hup.1)] at henter
            split at henter
            · cases henter
            · split at henter <;> grind
          obtain ⟨rfl, hentry⟩ := hnext
          obtain ⟨rfl, hprefixes⟩ := ih hup.2 h
          refine ⟨by simp, fun ms hms hp => ?_⟩
          obtain ⟨first, ms, rfl⟩ := List.exists_cons_of_ne_nil hms
          obtain ⟨rfl, hrestPrefix⟩ := List.cons_prefix_cons.mp hp
          by_cases hrest : ms = []
          · rw [hrest]
            exact hentry
          · have hdeep := hprefixes ms hrest hrestPrefix
            rwa [List.append_assoc] at hdeep

theorem start_of_rooted {path : String} (hrooted : (Path.ofString path).rooted = true)
    {cwd dir ns : List String} (h : start cwd path = .ok (dir, ns)) :
    dir = [] ∧ ns = (Path.ofString path).names ∧ ∀ cwd, start cwd path = .ok ([], ns) := by
  have hsame : ∀ cwd, start cwd path = start [] path := fun cwd => by simp [start, hrooted]
  rw [hsame] at h
  have hresult := h
  rw [start] at h
  split at h
  · cases h
  · split at h
    · cases h
    · cases h
      simp only [hrooted, ↓reduceIte] at hresult
      exact ⟨by simp, rfl, fun cwd => (hsame cwd).trans hresult⟩

/-- 根から `..` を通らずに書けたときに分かること。 -/
structure Written (t : FileTree) (path : String) (bytes : ByteArray) (before : List String)
    (name : String) (t' : FileTree) : Prop where
  names : (Path.ofString path).names = before ++ [name]
  start : ∀ cwd, start cwd path = .ok ([], before ++ [name])
  ending : PathEnding.ofString path = .name
  reached : before.foldlM t.enter [] = .ok before
  leads : t.Leads (before ++ [name])
  vacant : t.entry? (before ++ [name]) ≠ some .directory
  eq : t' = t.insert (before ++ [name]) bytes

theorem written_of_write {cwd : List String} {path : String}
    (hrooted : (Path.ofString path).rooted = true) (hup : ".." ∉ (Path.ofString path).names)
    (h : t.write cwd path bytes = .ok t') :
    ∃ before name, t.Written path bytes before name t' := by
  rw [write] at h
  cases hstart : FileTree.start cwd path with
  | error fault => rw [hstart] at h; cases h
  | ok begun =>
      obtain ⟨dir, ns⟩ := begun
      obtain ⟨rfl, hns, hstarts⟩ := start_of_rooted hrooted hstart
      rw [← hns] at hup
      simp only [hstart, bind, Except.bind] at h
      split at h
      · rename_i name hending hlast
        obtain ⟨before, hsplit⟩ := List.getLast?_eq_some_iff.mp hlast
        rw [hsplit, List.dropLast_concat] at h
        cases hreached : before.foldlM t.enter [] with
        | error fault => simp [hreached] at h
        | ok reached =>
            have hbefore : ".." ∉ before := fun hm => hup (hsplit ▸ List.mem_append_left _ hm)
            obtain ⟨hsame, hprefixes⟩ := foldlM_enter hbefore hreached
            rw [List.nil_append] at hsame
            subst reached
            simp only [hreached, put] at h
            have hname : name ≠ ".." := by
              rintro rfl
              exact hup (hsplit ▸ List.mem_append_right _ List.mem_cons_self)
            rw [if_neg hname] at h
            split at h
            · cases h
            · split at h
              · cases h
              · rename_i hvacant
                cases h
                refine ⟨before, name, hns ▸ hsplit, fun cwd => hsplit ▸ hstarts cwd, hending,
                  hreached, fun ms hms hprefix hne => ?_, hvacant, rfl⟩
                exact hprefixes ms hms ((List.prefix_concat_iff.mp hprefix).resolve_left hne)
      · split at h <;> cases h
      · split at h <;> cases h

variable {path : String} {before : List String} {name : String}

theorem Written.read?_self (h : t.Written path bytes before name t') (cwd : List String) :
    t'.read? cwd path = some bytes := by
  have hne : before ++ [name] ≠ [] := List.append_ne_nil_of_right_ne_nil _ (List.cons_ne_nil _ _)
  have hreached : (before.foldlM t'.enter []).toOption = some before := by
    rw [h.eq, foldlM_enter_insert h.leads hne h.vacant, h.reached]
    rfl
  have hentry : t'.entry? (before ++ [name]) = some (.file bytes) := by
    rw [h.eq, entry?_insert h.leads hne, if_pos rfl]
  have hstart : (FileTree.start cwd path).toOption = some ([], before ++ [name]) := by
    rw [h.start cwd]
    rfl
  simp [read?, hstart, hreached, hentry, h.ending]

theorem Written.read?_of_ne (h : t.Written path bytes before name t') {other : String}
    (hother : (Path.ofString other).names.getLast? ≠ some name) (cwd : List String) :
    t'.read? cwd other = t.read? cwd other := by
  have hne : before ++ [name] ≠ [] := List.append_ne_nil_of_right_ne_nil _ (List.cons_ne_nil _ _)
  have hentry : ∀ dir last, some last ≠ some name →
      t'.entry? (dir ++ [last]) = t.entry? (dir ++ [last]) := by
    intro dir last hlast
    rw [h.eq, entry?_insert h.leads hne, if_neg]
    exact fun heq => hlast (congrArg some (List.append_inj_right' heq rfl |> List.cons.inj).1)
  rw [read?, read?]
  cases hstart : FileTree.start cwd other with
  | error fault => rfl
  | ok begun =>
      obtain ⟨dir, ns⟩ := begun
      have hns : ns = (Path.ofString other).names := by
        rw [FileTree.start] at hstart
        split at hstart
        · cases hstart
        · split at hstart <;> cases hstart
          rfl
      have hfold : (ns.dropLast.foldlM t'.enter dir).toOption =
          (ns.dropLast.foldlM t.enter dir).toOption := by
        rw [h.eq]
        exact foldlM_enter_insert h.leads hne h.vacant ns.dropLast dir
      cases hlast : ns.getLast? with
      | none => simp [Except.toOption, hlast]
      | some last =>
          rw [← hns, hlast] at hother
          simp only [Except.toOption] at hfold
          simp [Except.toOption, hfold, hlast, hentry _ last hother]

end SpecLineage.FileTree

import SpecLineage.Proofs.Lineage.Truncation

/-!
# 控えと操作の記録

控えは、加えた操作の記録だけで決まる。どこまで加えたところで見ても、たどっている場所は入ったまま出ていない場所であり、
診断と祖先と文書も、記録から読みとれるものである。
-/

namespace SpecLineage

/-- 控えに加える操作。 -/
inductive Operation where
  | enter (l : Location)
  /-- 最後に入った場所を出る。入っている場所がなければ何も起こらない。 -/
  | leave
  | remember (l : Location) (d : Document)
  | record (d : Diagnostic)
  | recordAll (ds : List Diagnostic)
  deriving DecidableEq

namespace Operation

/-- 操作を控えに加える。 -/
def apply (s : Session) : Operation → Session
  | enter l => s.enter l
  | leave => s.leave
  | remember l d => s.remember l d
  | record d => s.record d
  | recordAll ds => s.recordAll ds

def isEnter : Operation → Bool
  | enter _ => true
  | _ => false

def isLeave : Operation → Bool
  | leave => true
  | _ => false

/-- 覚えた場所と文書。 -/
def remembered? : Operation → Option (Location × Document)
  | remember l d => some (l, d)
  | _ => none

/-- 控えた診断。 -/
def recorded : Operation → List Diagnostic
  | record d => [d]
  | recordAll ds => ds
  | _ => []

end Operation

/-- 加えた操作の並び。先に加えたものが前にある。 -/
abbrev Log := List Operation

namespace Log

/-- 新しい控えに、記録の操作を順に加える。 -/
def replay (maxErrors : Option Nat) (ops : Log) : Session :=
  ops.foldl Operation.apply { maxErrors }

/-! ## 記録から読みとるもの -/

/-- 覚えた場所と文書を、覚えた順に並べたもの。 -/
def remembered (ops : Log) : List (Location × Document) := ops.filterMap Operation.remembered?

/-- その場所に覚えた文書を、覚えた順に並べたもの。 -/
def documentsAt (ops : Log) (l : Location) : List Document :=
  (ops.remembered.filter (·.1 == l)).map Prod.snd

/-- 控えた診断を、控えた順に並べたもの。 -/
def recorded (ops : Log) : List Diagnostic := ops.flatMap Operation.recorded

/-- 初めからどこまで見ても、出た数が入った数を越えない。 -/
def Covered (ops : Log) : Prop :=
  ∀ p, p <+: ops → p.countP Operation.isLeave ≤ p.countP Operation.isEnter

instance (ops : Log) : Decidable ops.Covered :=
  decidable_of_iff (∀ p ∈ ops.inits, p.countP Operation.isLeave ≤ p.countP Operation.isEnter)
    (forall_congr' fun p => imp_congr_left (List.mem_inits p ops))

/-- 入っただけ出て、初めに入っていた場所からは出ない。 -/
def Balanced (ops : Log) : Prop :=
  ops.Covered ∧ ops.countP Operation.isLeave = ops.countP Operation.isEnter

instance (ops : Log) : Decidable ops.Balanced := inferInstanceAs (Decidable (_ ∧ _))

/-- 入ったまま出ていない場所。入った後の操作だけを見て、出た数が入った数を越えなければ、まだ出ていない。 -/
def openPlaces : Log → List Location
  | [] => []
  | .enter l :: ops => if Covered ops then l :: openPlaces ops else openPlaces ops
  | _ :: ops => openPlaces ops

/-! ## 組にならない操作 -/

/-- 出る操作のうち、それより前の入る操作と組にならないものの数。 -/
def unmatched : Log → Nat
  | [] => 0
  | .enter _ :: ops => unmatched ops - 1
  | .leave :: ops => unmatched ops + 1
  | _ :: ops => unmatched ops

variable {ops seg : Log}

theorem unmatched_le_iff {k : Nat} : ops.unmatched ≤ k ↔
    ∀ p, p <+: ops → p.countP Operation.isLeave ≤ p.countP Operation.isEnter + k := by
  induction ops generalizing k with
  | nil => simp [unmatched]
  | cons op ops ih =>
      have hheads : (∀ p, p <+: op :: ops →
          p.countP Operation.isLeave ≤ p.countP Operation.isEnter + k) ↔
          ∀ p, p <+: ops →
            (op :: p).countP Operation.isLeave ≤ (op :: p).countP Operation.isEnter + k := by
        refine ⟨fun h p hp => h _ (List.cons_prefix_cons.mpr ⟨rfl, hp⟩), fun h p hp => ?_⟩
        rcases List.prefix_cons_iff.mp hp with rfl | ⟨q, rfl, hq⟩
        · exact Nat.zero_le _
        · exact h q hq
      rw [hheads]
      cases op with
      | enter l =>
          simp only [unmatched, Nat.sub_le_iff_le_add, ih, List.countP_cons, Operation.isLeave,
            Operation.isEnter, Bool.false_eq_true, ↓reduceIte, Nat.add_zero]
          exact forall₂_congr fun p _ => by omega
      | leave =>
          simp only [unmatched, List.countP_cons, Operation.isLeave, Operation.isEnter,
            Bool.false_eq_true, ↓reduceIte, Nat.add_zero]
          cases k with
          | zero =>
              refine iff_of_false (Nat.not_succ_le_zero _) fun h => ?_
              exact Nat.not_succ_le_zero _ (h [] (List.nil_prefix))
          | succ k =>
              rw [Nat.add_le_add_iff_right, ih]
              exact forall₂_congr fun p _ => by omega
      | _ => exact ih

theorem covered_iff : ops.Covered ↔ ops.unmatched = 0 := by
  rw [← Nat.le_zero, unmatched_le_iff]
  exact Iff.rfl

/-- 入ったまま出ていない場所の数は、入った数から、組になる出る操作の数を除いたものである。 -/
theorem length_openPlaces (ops : Log) : ops.openPlaces.length + ops.countP Operation.isLeave =
    ops.countP Operation.isEnter + ops.unmatched := by
  induction ops with
  | nil => rfl
  | cons op ops ih =>
      cases op with
      | enter l =>
          simp only [openPlaces, unmatched, covered_iff, List.countP_cons, Operation.isLeave,
            Operation.isEnter, Bool.false_eq_true, ↓reduceIte, Nat.add_zero]
          split
          · rw [List.length_cons]
            omega
          · omega
      | leave =>
          simp only [openPlaces, unmatched, List.countP_cons, Operation.isLeave,
            Operation.isEnter, Bool.false_eq_true, ↓reduceIte, Nat.add_zero]
          omega
      | _ => exact ih

/-! ## 続けて加える操作 -/

/-- 自分で入った所からだけ出る操作は、それより前の操作と組にならない。 -/
theorem unmatched_append (h : seg.Covered) : unmatched (ops ++ seg) = ops.unmatched := by
  induction ops with
  | nil => exact covered_iff.mp h
  | cons op ops ih => cases op <;> simp only [List.cons_append, unmatched, ih]

theorem openPlaces_append (h : seg.Covered) :
    openPlaces (ops ++ seg) = ops.openPlaces ++ seg.openPlaces := by
  induction ops with
  | nil => rfl
  | cons op ops ih =>
      cases op with
      | enter l =>
          simp only [List.cons_append, openPlaces, covered_iff, unmatched_append h, ih]
          split <;> rfl
      | _ => exact ih

/-- 釣り合った操作が続いても、入ったままの場所は変わらない。 -/
theorem openPlaces_append_balanced (h : seg.Balanced) :
    openPlaces (ops ++ seg) = ops.openPlaces := by
  obtain ⟨hcovered, hcount⟩ := h
  have hlength := length_openPlaces seg
  rw [covered_iff.mp hcovered] at hlength
  have hnil : seg.openPlaces = [] := List.eq_nil_of_length_eq_zero (by omega)
  rw [openPlaces_append hcovered, hnil, List.append_nil]

theorem covered_concat_leave : Covered (ops ++ [.leave]) ↔ ops.Covered ∧
    ops.countP Operation.isLeave < ops.countP Operation.isEnter := by
  simp only [Covered, List.prefix_concat_iff, or_imp, forall_and, forall_eq, List.countP_append,
    List.countP_singleton, Operation.isLeave, Operation.isEnter, Bool.false_eq_true, ↓reduceIte,
    Nat.add_zero, Nat.add_one_le_iff, and_comm]

/-- 出る操作は、最後に入った場所だけを除く。 -/
theorem openPlaces_concat_leave (ops : Log) :
    openPlaces (ops ++ [.leave]) = ops.openPlaces.dropLast := by
  induction ops with
  | nil => rfl
  | cons op ops ih =>
      cases op with
      | enter l =>
          simp only [List.cons_append, openPlaces, ih]
          by_cases hops : Covered ops
          · have hlength := length_openPlaces ops
            rw [covered_iff.mp hops] at hlength
            rw [if_pos hops]
            cases hopen : openPlaces ops with
            | nil =>
                -- この操作と組になるのは、いま加えた出る操作である。
                rw [hopen, List.length_nil] at hlength
                rw [if_neg fun h => by have := (covered_concat_leave.mp h).2; omega]
                rfl
            | cons m ms =>
                rw [hopen, List.length_cons] at hlength
                rw [if_pos (covered_concat_leave.mpr ⟨hops, by omega⟩)]
                rfl
          · rw [if_neg hops, if_neg fun h => hops (covered_concat_leave.mp h).1]
      | _ => exact ih

/-! ## 記録と控え -/

theorem replay_concat (maxErrors : Option Nat) (ops : Log) (op : Operation) :
    replay maxErrors (ops ++ [op]) = op.apply (ops.replay maxErrors) := List.foldl_concat ..

variable {maxErrors : Option Nat}

theorem stack_replay (maxErrors : Option Nat) (ops : Log) :
    (ops.replay maxErrors).stack = ops.openPlaces := by
  induction ops using List.reverseRecOn with
  | nil => rfl
  | append_singleton ops op ih =>
      rw [replay_concat]
      cases op with
      | enter l =>
          rw [openPlaces_append (covered_iff.mpr rfl), ← ih]
          rfl
      | leave =>
          rw [openPlaces_concat_leave, ← ih]
          rfl
      | remember l d =>
          rw [openPlaces_append (covered_iff.mpr rfl), ← ih]
          exact (List.append_nil _).symm
      | record d =>
          rw [openPlaces_append (covered_iff.mpr rfl), ← ih]
          exact (Session.stack_record ..).trans (List.append_nil _).symm
      | recordAll ds =>
          rw [openPlaces_append (covered_iff.mpr rfl), ← ih]
          exact (Session.stack_recordAll ..).trans (List.append_nil _).symm

theorem recorded_replay (maxErrors : Option Nat) (ops : Log) :
    Session.Recorded maxErrors ops.recorded (ops.replay maxErrors) := by
  induction ops using List.reverseRecOn with
  | nil => exact .start _ rfl rfl rfl rfl
  | append_singleton ops op ih =>
      rw [replay_concat, recorded, List.flatMap_append, List.flatMap_singleton]
      cases op with
      | record d => exact ih.record d
      | recordAll ds => exact ih.recordAll ds
      | _ =>
          change Session.Recorded maxErrors (recorded ops ++ []) _
          rw [List.append_nil]
          exact ⟨ih.maxErrors, ih.errors, ih.warnings, ih.suppressed⟩

/-- 覚える操作のほかは、覚えた文書に関わらない。 -/
theorem aside_apply {op : Operation} (h : op.remembered? = none) :
    Session.Aside (Operation.apply · op) := by
  cases op with
  | enter l => exact Session.aside_enter l
  | leave => exact ⟨fun _ _ => rfl, fun _ => rfl, fun _ _ _ => rfl⟩
  | remember l d => cases h
  | record d => exact Session.aside_record d
  | recordAll ds => exact Session.aside_recordAll ds

theorem remembered_concat (ops : Log) (op : Operation) :
    remembered (ops ++ [op]) = ops.remembered ++ op.remembered?.toList := by
  rw [remembered, List.filterMap_append, List.filterMap_cons]
  cases op.remembered? <;> rfl

theorem ancestors_replay (maxErrors : Option Nat) (ops : Log) :
    (ops.replay maxErrors).ancestors = (ops.remembered.map Prod.fst).eraseDups := by
  induction ops using List.reverseRecOn with
  | nil => rfl
  | append_singleton ops op ih =>
      rw [replay_concat, remembered_concat, List.map_append]
      cases h : op.remembered? with
      | none =>
          rw [(aside_apply h).ancestors, ih]
          exact congrArg List.eraseDups (List.append_nil _).symm
      | some p =>
          cases op with
          | remember l d =>
              cases h
              change (if (replay maxErrors ops).ancestors.contains l then _ else _) = _
              rw [Option.toList_some, List.map_singleton, List.eraseDups_concat, ih]
              simp only [List.contains_iff_mem, List.mem_eraseDups]
          | _ => cases h

theorem cached_replay (maxErrors : Option Nat) (ops : Log) (l : Location) :
    (ops.replay maxErrors).cached l = (ops.documentsAt l).getLast? := by
  induction ops using List.reverseRecOn with
  | nil => rfl
  | append_singleton ops op ih =>
      rw [replay_concat, documentsAt, remembered_concat, List.filter_append, List.map_append,
        ← documentsAt]
      cases h : op.remembered? with
      | none =>
          rw [(aside_apply h).cached, ih]
          exact congrArg List.getLast? (List.append_nil _).symm
      | some p =>
          cases op with
          | remember m d =>
              cases h
              rw [Operation.apply, Session.cached_remember, ih, Option.toList_some]
              by_cases hm : m = l
              · simp [hm]
              · simp [hm, Ne.symm hm]
          | _ => cases h

theorem isSome_cached_replay {l : Location} : ((ops.replay maxErrors).cached l).isSome ↔
    l ∈ (ops.replay maxErrors).ancestors := by
  rw [cached_replay, ancestors_replay, List.mem_eraseDups, List.getLast?_isSome, documentsAt]
  simp

end Log

/-! ## 主な定理 -/

theorem capped_eq_take (limit : Option Nat) (es : List Diagnostic) :
    capped limit es = es.take (limit.elim es.length (min · es.length)) := by
  cases limit with
  | none => exact List.take_length.symm
  | some cap => exact capped_some cap es

theorem Session.cycle_eq (s : Session) (l : Location) :
    s.cycle l = s.stack.drop (s.stack.idxOf l) ++ [l] := by
  have hfirst : (fun m => !(m != l)) = (· == l) := by
    funext m
    rw [bne, Bool.not_not]
  rw [cycle, List.dropWhile_eq_drop_findIdx_not, hfirst, List.idxOf]

/-- 新しい控えに操作をどう加えても、控えは加えた操作の忠実な写しである。 -/
theorem session_replays_log (maxErrors : Option Nat) (ops : Log) :
    let s := ops.replay maxErrors
    let found := errorsOf ops.recorded
    let kept := maxErrors.elim found.length (min · found.length)
    (s.stack = ops.openPlaces ∧
      ∀ seg : Log, seg.Balanced → (Log.replay maxErrors (ops ++ seg)).stack = s.stack) ∧
    (s.errors = found.take kept ∧ s.suppressed = found.length - kept ∧
      (s.isValid ↔ found.length = 0)) ∧
    s.warnings = warningsOf ops.recorded ∧
    s.ancestors = (ops.remembered.map Prod.fst).eraseDups ∧
    (∀ l, s.cached l = (ops.documentsAt l).getLast? ∧ ((s.cached l).isSome ↔ l ∈ s.ancestors)) ∧
    ∀ l, (s.inProgress l ↔ l ∈ s.stack) ∧
      s.cycle l = s.stack.drop (s.stack.idxOf l) ++ [l] := by
  intro s found kept
  have hrecorded := ops.recorded_replay maxErrors
  have herrors : s.errors = found.take kept := hrecorded.errors.trans (capped_eq_take ..)
  refine ⟨⟨ops.stack_replay maxErrors, fun seg hseg => ?_⟩, ⟨herrors, ?_, ?_⟩, hrecorded.warnings,
    ops.ancestors_replay maxErrors,
    fun l => ⟨ops.cached_replay maxErrors l, Log.isSome_cached_replay⟩,
    fun l => ⟨List.contains_iff_mem, s.cycle_eq l⟩⟩
  · rw [Log.stack_replay, Log.openPlaces_append_balanced hseg]
    exact (ops.stack_replay maxErrors).symm
  · have hkept : kept ≤ found.length := by
      cases maxErrors with
      | none => exact Nat.le_refl _
      | some cap => exact Nat.min_le_right cap _
    rw [hrecorded.suppressed]
    change found.length - s.errors.length = _
    rw [herrors, List.length_take_of_le hkept]
  · rw [hrecorded.isValid, List.isEmpty_iff_length_eq_zero]

/-- 同じ場所に二度入り、同じ場所に二つの文書を覚え、上限を越えて誤りを控える記録。 -/
def Log.tangled : Log :=
  [.enter "/a", .leave, .leave, .enter "/b", .enter "/a", .record (.error .parentLoadError "e"),
    .enter "/a", .remember "/p" {}, .remember "/q" {}, .leave,
    .recordAll [.warning .circularInheritanceAllowed "w", .error .missingDependency "f"],
    .enter "/b", .remember "/p" { parents := ["/q"] }]

theorem session_replays_log_tangled :
    Log.Balanced [.enter "/b", .enter "/c", .leave, .remember "/c" {}, .leave] ∧
      (Log.replay (some 1) (Log.tangled ++
        [.enter "/b", .enter "/c", .leave, .remember "/c" {}, .leave])).stack = ["/b", "/a", "/b"] ∧
      (Log.tangled.replay (some 1)).errors = [.error .parentLoadError "e"] ∧
      (Log.tangled.replay (some 1)).suppressed = 1 ∧
      (Log.tangled.replay (some 1)).ancestors = ["/p", "/q"] ∧
      (Log.tangled.replay (some 1)).cached "/p" = some { parents := ["/q"] } ∧
      (Log.tangled.replay (some 1)).cycle "/a" = ["/a", "/b", "/a"] := by
  have hseg : Log.Balanced [.enter "/b", .enter "/c", .leave, .remember "/c" {}, .leave] := by
    decide
  obtain ⟨⟨hstack, hbalanced⟩, ⟨herrors, hsuppressed, -⟩, -, hancestors, hcached, hcycle⟩ :=
    session_replays_log (some 1) Log.tangled
  have hopen : Log.tangled.openPlaces = ["/b", "/a", "/b"] := by decide
  refine ⟨hseg, ?_, ?_, ?_, ?_, ?_, ?_⟩
  · rw [hbalanced _ hseg, hstack, hopen]
  · rw [herrors]; rfl
  · rw [hsuppressed]; rfl
  · rw [hancestors]; rfl
  · rw [(hcached "/p").1]; rfl
  · rw [(hcycle "/a").2, hstack, hopen]; rfl

end SpecLineage

import Mathlib.Data.List.Basic
import SpecLineage.Lineage.Outcome
import SpecLineage.Proofs.Lineage.Report

/-!
# 系譜をたどった跡

控えも蓄えも使わず、読み込みだけから、系譜をたどって起きることを順に並べる。文書を一つ解くごとに、その参照を
並びの順にたどり、親を重ねるときは親の跡が続く。重ねた文書の列、見つけた診断、読み込みを求めた場所は、どれも
跡から読み取る。
-/

namespace SpecLineage

/-- たどっている文書。`above` は、根からこの文書の手前までの場所を外側から並べる。 -/
structure Visit where
  above : List Location
  location : Location
  document : Document

namespace Visit

def depth (v : Visit) : Nat := v.above.length

def chain (v : Visit) : List Location := v.above ++ [v.location]

/-- この文書の親として、場所 `l` の文書をたどる。 -/
def parent (v : Visit) (l : Location) (d : Document) : Visit := ⟨v.chain, l, d⟩

/-- 場所 `l` に戻って閉じる輪。 -/
def cycle (v : Visit) (l : Location) : List Location := v.chain.dropWhile (· != l) ++ [l]

@[simp] theorem chain_length (v : Visit) : v.chain.length = v.depth + 1 := by
  simp [chain, depth]

@[simp] theorem depth_parent (v : Visit) (l : Location) (d : Document) :
    (v.parent l d).depth = v.depth + 1 := chain_length v

@[simp] theorem chain_parent (v : Visit) (l : Location) (d : Document) :
    (v.parent l d).chain = v.chain ++ [l] := rfl

@[simp] theorem location_parent (v : Visit) (l : Location) (d : Document) :
    (v.parent l d).location = l := rfl

@[simp] theorem document_parent (v : Visit) (l : Location) (d : Document) :
    (v.parent l d).document = d := rfl

end Visit

/-! ## 参照の行方 -/

/-- 一つの参照をたどった結果。 -/
inductive Fate where
  /-- 場所に解けない。 -/
  | unresolved (fault : InvalidReference)
  /-- 輪が閉じるので断つ。 -/
  | rejected (location : Location)
  /-- 文書を読み込めない。 -/
  | unloaded (location : Location) (fault : LoadFault)
  /-- 文書を読み込み、下に重ねる。 -/
  | folded (location : Location) (document : Document)

namespace Fate

def next? (v : Visit) : Fate → Option Visit
  | folded l d => some (v.parent l d)
  | _ => none

def asked? : Fate → Option Location
  | unloaded l _ => some l
  | folded l _ => some l
  | _ => none

def notes (v : Visit) (reference : String) : Fate → List Diagnostic
  | unresolved fault => [SpecLineage.unresolved fault]
  | rejected l => [circular (v.cycle l)]
  | unloaded l fault => reentry l ++ [SpecLineage.unloaded reference l fault]
  | folded l _ => reentry l
where
  /-- 輪を断たずに、たどっている場所へ戻る。 -/
  reentry (l : Location) : List Diagnostic :=
    if l ∈ v.chain then [circularAllowed (v.cycle l)] else []

theorem chain_of_next? {v parent : Visit} {fate : Fate} (h : fate.next? v = some parent) :
    parent.chain = v.chain ++ [parent.location] := by
  cases fate with
  | folded l d => cases h; rfl
  | _ => cases h

end Fate

/-! ## 出来事 -/

/-- 系譜をたどる途中の出来事。 -/
inductive Event where
  /-- 文書 `v` の参照をたどった。 -/
  | followed (v : Visit) (reference : String) (fate : Fate)
  /-- 文書 `v` が深すぎて、その参照をたどらなかった。 -/
  | overran (v : Visit)

namespace Event

def visit? : Event → Option Visit
  | followed v _ fate => fate.next? v
  | overran _ => none

def asked? : Event → Option Location
  | followed _ _ fate => fate.asked?
  | overran _ => none

def notes (maxDepth : Nat) : Event → List Diagnostic
  | followed v reference fate => fate.notes v reference
  | overran v => [tooDeep maxDepth v.location]

end Event

/-- 重ねた文書の列。 -/
def visitsOf (es : List Event) : List Visit := es.filterMap Event.visit?

def askedOf (es : List Event) : List Location := es.filterMap Event.asked?

def notesOf (maxDepth : Nat) (es : List Event) : List Diagnostic := es.flatMap (Event.notes maxDepth)

namespace Resolver

variable (r : Resolver)

/-- 文書 `v` に書かれた参照の行方。 -/
def fate (v : Visit) (reference : String) : Fate :=
  match r.addressing.resolve reference v.location with
  | .error fault => .unresolved fault
  | .ok l =>
    if l ∈ v.chain ∧ r.options.allowCircular = false then .rejected l
    else
      match r.load l with
      | .error fault => .unloaded l fault
      | .ok d => .folded l d

/-- 参照を一つたどった跡。`sub` は親の跡を並べる。 -/
def branch (sub : Visit → List Event) (v : Visit) (reference : String) : List Event :=
  .followed v reference (r.fate v reference) ::
    match (r.fate v reference).next? v with
    | some parent => sub parent
    | none => []

/-- 系譜をたどった跡。`left` は、あと何段まで親をたどれるかを表す。 -/
def trail : (left : Nat) → Visit → List Event
  | 0, v => [.overran v]
  | left + 1, v => v.document.parents.flatMap (r.branch (trail left) v)

/-- 参照の先で下に重ねる文書の列。`sub` は親の先で重ねる文書を並べる。 -/
def below (sub : Visit → List Visit) (v : Visit) (reference : String) : List Visit :=
  match (r.fate v reference).next? v with
  | some parent => parent :: sub parent
  | none => []

/-- 参照を一つたどり、解いた親を下に重ねる。`sub` は親の系譜を解く。 -/
def foldParent (sub : Visit → Document) (v : Visit) (result : Document) (reference : String) :
    Document :=
  match (r.fate v reference).next? v with
  | some parent => Document.merge r.options.strategy (sub parent) result
  | none => result

/-- 系譜を解いた文書。 -/
def compose : (left : Nat) → Visit → Document
  | 0, v => v.document
  | left + 1, v => v.document.parents.foldl (r.foldParent (compose left) v) v.document

/-! ## 根からの跡 -/

/-- 場所 `base` にある根の文書。 -/
def root (d : Document) (base : String) : Visit := ⟨[], r.addressing.normalize base, d⟩

def events (d : Document) (base : String) : List Event :=
  r.trail (r.options.maxDepth + 1) (r.root d base)

/-- 根のほかに重ねた文書の列。 -/
def visits (d : Document) (base : String) : List Visit := visitsOf (r.events d base)

/-- 重ねた文書の列。勝つ順に並び、根が初めに来る。 -/
def layers (d : Document) (base : String) : List Document :=
  d :: (r.visits d base).map Visit.document

def resolved (d : Document) (base : String) : Document :=
  r.compose (r.options.maxDepth + 1) (r.root d base)

/-- 見つけた診断。親のある根では、解いた文書の検査が続く。 -/
def findings (d : Document) (base : String) : List Diagnostic :=
  notesOf r.options.maxDepth (r.events d base) ++
    if d.hasParents && r.options.checkConsistency then (r.resolved d base).check else []

/-- 控えも蓄えも使わず、文書をたどるたびに読み込んで系譜を解いた結果。 -/
def plain (d : Document) (base : String) : Outcome :=
  let errors := errorsOf (r.findings d base)
  let kept := capped r.options.maxErrors errors
  { valid := errors.isEmpty
    errors := kept
    warnings := warningsOf (r.findings d base)
    resolved := r.resolved d base
    ancestors := ((r.visits d base).map Visit.location).eraseDups
    suppressed := errors.length - kept.length }

/-! ## 参照の行方の場合 -/

variable {r}

theorem fate_of_ok {v : Visit} {reference : String} {l : Location}
    (h : r.addressing.resolve reference v.location = .ok l) :
    r.fate v reference =
      if l ∈ v.chain ∧ r.options.allowCircular = false then .rejected l
      else
        match r.load l with
        | .error fault => .unloaded l fault
        | .ok d => .folded l d := by
  simp only [fate, h]

/-- 参照の行方ごとに、参照と読み込みについて分かること。 -/
theorem fate_spec (v : Visit) (reference : String) :
    match r.fate v reference with
    | .unresolved fault => r.addressing.resolve reference v.location = .error fault
    | .rejected l => r.addressing.resolve reference v.location = .ok l ∧
        l ∈ v.chain ∧ r.options.allowCircular = false
    | .unloaded l fault => r.addressing.resolve reference v.location = .ok l ∧
        ¬(l ∈ v.chain ∧ r.options.allowCircular = false) ∧ r.load l = .error fault
    | .folded l d => r.addressing.resolve reference v.location = .ok l ∧
        ¬(l ∈ v.chain ∧ r.options.allowCircular = false) ∧ r.load l = .ok d := by
  cases hr : r.addressing.resolve reference v.location with
  | error fault => simp only [fate, hr]
  | ok l =>
      rw [fate_of_ok hr]
      by_cases hcut : l ∈ v.chain ∧ r.options.allowCircular = false
      · rw [if_pos hcut]
        exact ⟨rfl, hcut⟩
      · rw [if_neg hcut]
        cases hl : r.load l with
        | error fault => exact ⟨rfl, hcut, hl⟩
        | ok d => exact ⟨rfl, hcut, hl⟩

/-! ## 跡の不変条件 -/

/-- 跡から読み取るものは、参照ごとに、その出来事から読み取るものと、親の跡から読み取るものである。 -/
theorem filterMap_trail {α : Type} (f : Event → Option α) (left : Nat) (v : Visit) :
    (r.trail (left + 1) v).filterMap f = v.document.parents.flatMap fun reference =>
      (f (.followed v reference (r.fate v reference))).toList ++
        match (r.fate v reference).next? v with
        | some parent => (r.trail left parent).filterMap f
        | none => [] := by
  rw [trail, List.filterMap_flatMap]
  refine List.flatMap_congr fun reference _ => ?_
  rw [branch, List.filterMap_cons]
  cases f (.followed v reference (r.fate v reference)) <;>
    cases (r.fate v reference).next? v <;> rfl

/-- 文書の親ごとに、その親と、親の先で重ねた文書が続く。 -/
theorem visitsOf_trail (left : Nat) (v : Visit) : visitsOf (r.trail (left + 1) v) =
    v.document.parents.flatMap (r.below (fun parent => visitsOf (r.trail left parent)) v) := by
  rw [visitsOf, filterMap_trail]
  refine List.flatMap_congr fun reference _ => ?_
  rw [Event.visit?, below]
  cases (r.fate v reference).next? v <;> rfl

/-- 文書 `v` が `P` を満たすときの出来事。参照の行方は、文書と読み込みから決まる。 -/
def Arises (r : Resolver) (P : Visit → Prop) : Event → Prop
  | .followed v reference fate =>
      P v ∧ reference ∈ v.document.parents ∧ fate = r.fate v reference
  | .overran v => P v

/-- 親へ移るときに保たれる性質は、跡のどの文書でも成り立つ。 -/
theorem arises_of_mem_trail {P : Visit → Prop}
    (step : ∀ v reference parent, P v → reference ∈ v.document.parents →
      (r.fate v reference).next? v = some parent → P parent) (left : Nat) :
    ∀ v, P v → ∀ e ∈ r.trail left v, Arises r P e := by
  induction left with
  | zero =>
      intro v hv e he
      rw [trail, List.mem_singleton] at he
      subst he
      exact hv
  | succ left ih =>
      intro v hv e he
      obtain ⟨reference, href, he⟩ := List.mem_flatMap.mp he
      rcases List.mem_cons.mp he with rfl | he
      · exact ⟨hv, href, rfl⟩
      · cases hnext : (r.fate v reference).next? v with
        | none => simp [hnext] at he
        | some parent =>
            rw [hnext] at he
            exact ih parent (step v reference parent hv href hnext) e he

theorem arises_trail (left : Nat) (v : Visit) : ∀ e ∈ r.trail left v, Arises r (fun _ => True) e :=
  arises_of_mem_trail (fun _ _ _ _ _ _ => trivial) left v trivial

end Resolver
end SpecLineage

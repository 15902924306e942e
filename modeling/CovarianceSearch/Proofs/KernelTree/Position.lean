import CovarianceSearch.Proofs.KernelTree.Alike

namespace CovarianceSearch

namespace OpTree

variable {ω α : Type}

/-- The subtree at a position. A position says for every node on the way down which operand comes
next. -/
def subtree? : List Nat → OpTree ω α → Option (OpTree ω α)
  | [], t => some t
  | _ :: _, .leaf _ => none
  | i :: path, .node _ ts => ts[i]?.bind (subtree? path)

def replaceAt (s : OpTree ω α) : List Nat → OpTree ω α → OpTree ω α
  | [], _ => s
  | _ :: _, .leaf a => .leaf a
  | i :: path, .node op ts => .node op (ts.modify i (replaceAt s path))

theorem forall₂_modify {R : OpTree ω α → OpTree ω α → Prop}
    {f : OpTree ω α → OpTree ω α} {ts : List (OpTree ω α)} {i : Nat}
    (hsame : ∀ t ∈ ts, R t t) (hchanged : ∀ t, ts[i]? = some t → R (f t) t) :
    List.Forall₂ R (ts.modify i f) ts := by
  induction ts generalizing i with
  | nil => simp
  | cons t ts ih =>
    have hrest : ∀ s ∈ ts, R s s := fun s hs ↦ hsame s (List.mem_cons_of_mem t hs)
    cases i with
    | zero => exact .cons (hchanged t rfl) (List.forall₂_same.2 hrest)
    | succ i =>
      rw [List.modify_succ_cons]
      exact .cons (hsame t List.mem_cons_self) (ih hrest fun s hs ↦ hchanged s hs)

end OpTree

namespace KernelTree

/-- A tree stays alike when the subtree at a position makes way for one that is alike. -/
theorem IsValid.replaceAt_alike {t s s' : KernelTree} {path : List Nat} (ht : t.IsValid)
    (hs : OpTree.subtree? path t = some s) (h : Alike s' s) :
    Alike (OpTree.replaceAt s' path t) t := by
  induction path generalizing t with
  | nil =>
    obtain rfl : t = s := Option.some_inj.1 hs
    exact h
  | cons i path ih =>
    cases t with
    | leaf k => cases hs
    | node c ts =>
      obtain ⟨x, hx, hs⟩ := Option.bind_eq_some_iff.1 hs
      obtain ⟨hc, hne, hts⟩ := isValid_node_iff.1 ht
      have hoperands : List.Forall₂ Alike (ts.modify i (OpTree.replaceAt s' path)) ts := by
        apply OpTree.forall₂_modify
        · intro t ht
          exact (hts t ht).alike
        · intro t ht
          obtain rfl : x = t := Option.some_inj.1 (hx.symm.trans ht)
          exact ih (hts x (List.mem_of_getElem? hx)) hs
      have hne' : ts.modify i (OpTree.replaceAt s' path) ≠ [] := by
        rw [← List.length_pos_iff, hoperands.length_eq]
        exact List.length_pos_iff.2 hne
      exact alike_node hc hne' hoperands

theorem IsValid.of_subtree? {t s : KernelTree} {path : List Nat} (ht : t.IsValid)
    (hs : OpTree.subtree? path t = some s) : s.IsValid := by
  induction path generalizing t with
  | nil =>
    obtain rfl : t = s := Option.some_inj.1 hs
    exact ht
  | cons i path ih =>
    cases t with
    | leaf k => cases hs
    | node c ts =>
      obtain ⟨x, hx, hs⟩ := Option.bind_eq_some_iff.1 hs
      exact ih (ht.children_valid (List.mem_of_getElem? hx)) hs

end KernelTree

end CovarianceSearch

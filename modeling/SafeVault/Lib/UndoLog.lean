import SafeVault.Lib.LeafTree

/-!
# Taking changes of labels back

Before the label of a node is changed its position and the label are put on a log. Going through the
log from the newest entry to the oldest gives the tree as it was, however often a node was changed.
An entry need not give back the whole label: what no change touches may stay as it is.
-/

namespace SafeVault

namespace LeafTree

variable {ν μ : Type*}

/-- Put the labels of a log back, the newest first. `back old n` is the label `n` with what an entry
keeps of `old`. -/
def restore (back : ν → ν → ν) (log : List (List ℕ × ν)) (t : LeafTree ν μ) : LeafTree ν μ :=
  log.foldl (fun t e ↦ t.modifyAt (setLabel (back e.2)) e.1) t

variable {back : ν → ν → ν} {k : ν → ν} {log : List (List ℕ × ν)} {t u : LeafTree ν μ} {p : List ℕ}

/-- Two changes of one label. -/
theorem modifyAt_setLabel_twice (k l : ν → ν) :
    (t.modifyAt (setLabel k) p).modifyAt (setLabel l) p = t.modifyAt (setLabel fun n ↦ l (k n)) p := by
  simp only [fun (k : ν → ν) (t : LeafTree ν μ) ↦ modifyAt_setLabel (p := []) (q := p) (t := t) k,
    mapAt_mapAt]
  refine mapAt_congr fun q w _ ↦ ?_
  split_ifs <;> rfl

/-- A change that is taken back at once. -/
theorem modifyAt_back (h : t.get? p = some u) (hback : back u.label (k u.label) = u.label) :
    (t.modifyAt (setLabel k) p).modifyAt (setLabel (back u.label)) p = t := by
  rw [modifyAt_setLabel (p := []), modifyAt_setLabel (p := []), mapAt_mapAt]
  refine (mapAt_congr fun q w hw ↦ ?_).trans (mapAt_id (p := []))
  rw [List.nil_append, List.nil_append]
  by_cases hq : q = p
  · subst hq
    obtain rfl := Option.some_inj.mp (h.symm.trans hw)
    rw [if_pos rfl, if_pos rfl, hback]
  · rw [if_neg hq, if_neg hq]

/-- **A change that is logged** does not change what the log leads back to. -/
theorem restore_cons_modifyAt (h : t.get? p = some u)
    (hback : back u.label (k u.label) = u.label) :
    restore back ((p, u.label) :: log) (t.modifyAt (setLabel k) p) = restore back log t := by
  rw [restore, List.foldl_cons, modifyAt_back h hback, restore]

end LeafTree

end SafeVault

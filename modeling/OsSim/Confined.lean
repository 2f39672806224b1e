import OsSim.Hand
import OsSim.Runs
/-!
# Confined — a call brings in its caller's pages only

An eviction marks a page of any process as swapped out; a frame goes under a page of the caller only.  Read off the
text of the programs, one operation at a time.
-/
namespace OsSim

open Atomic Code Prog

/-- The operation puts no frame under a page that is not `p`'s. -/
def Op.ownPages (p : Pid) : Op → Prop
  | .setFpn r _ => r.pid = p
  | _ => True

abbrev Own (p : Pid) {α : Type} (c : Code α) : Prop := c.Within (Op.ownPages p) (fun _ => True)

theorem own_call (p : Pid) (fuel : Nat) (c : Call) : Own p (c.code fuel p) := by
  refine (handles_call fuel c).within (fun g o hmay => ?_)
  cases o with
  | setFpn r fpn => exact hmay.2
  | _ => trivial

theorem step_pgd {o : Op} {m m' : Machine} {a : o.Res} (h : step o m = .ok (m', a)) :
    m'.pgd = m.pgd ∨
      (∃ r swptyp swpoff, o = .setSwap r swptyp swpoff ∧
        m'.pgd = Function.update m.pgd r (pteSetSwap (m.pgd r) swptyp swpoff)) ∨
      ∃ r fpn, o = .setFpn r fpn ∧ m'.pgd = Function.update m.pgd r (pteSetFpn (m.pgd r) fpn) := by
  have hmap : ∀ {α : Type} {x : Except Fault α} {f : α → Machine × o.Res}, (∀ b, (f b).1.pgd = m.pgd) →
      x.map f = .ok (m', a) → m'.pgd = m.pgd := by
    intro α x f hf hx
    obtain ⟨b, -, heq⟩ := map_ok hx
    have hb := hf b
    rwa [heq] at hb
  cases o with
  | setSwap r swptyp swpoff =>
    cases h
    exact Or.inr (Or.inl ⟨r, swptyp, swpoff, rfl, rfl⟩)
  | setFpn r fpn =>
    cases h
    exact Or.inr (Or.inr ⟨r, fpn, rfl, rfl⟩)
  | read d addr | load r addr => exact Or.inl (hmap (fun _ => rfl) h)
  | write d addr data => exact Or.inl (hmap (fun _ => by simp) h)
  | store r addr data => exact Or.inl (hmap (fun _ => by simp) h)
  | findLruVictimPage =>
    rw [step] at h
    split at h <;> cases h <;> exact Or.inl rfl
  | updateLruLst ptr =>
    rw [step] at h
    split at h <;> cases h
    exact Or.inl rfl
  | getFreefp d | putFreefp d fpn =>
    cases h
    exact Or.inl (by simp)
  | fault f => cases h
  | _ =>
    cases h
    exact Or.inl rfl

theorem completes_present {m m' : Machine} {p : Pid} {c : Call} {ret : Ret} (h : Completes m p c ret m') {r : PteRef}
    (hr : r.pid ≠ p) (hpres : (m'.pgd r).present = true) : (m.pgd r).present = true := by
  obtain ⟨fuel, hrun⟩ := h
  have hop : ∀ (o : Op) (s s' : Machine) (a : o.Res), o.ownPages p → step o s = .ok (s', a) →
      ((s.pgd r).present = true → (m.pgd r).present = true) → (s'.pgd r).present = true → (m.pgd r).present = true := by
    intro o s s' a ho hstep ih hpres
    rcases step_pgd hstep with hpgd | ⟨q, swptyp, swpoff, -, hpgd⟩ | ⟨q, fpn, rfl, hpgd⟩
    · exact ih (by rwa [hpgd] at hpres)
    · rw [hpgd] at hpres
      by_cases hq : r = q
      · subst hq
        simp at hpres
      · exact ih (by rwa [Function.update_of_ne hq] at hpres)
    · have hq : r ≠ q := fun e => hr (e ▸ ho)
      exact ih (by rwa [hpgd, Function.update_of_ne hq] at hpres)
  exact (exec_within step _ hop (own_call p fuel c) hrun id).1 hpres

end OsSim

import OsSim.Ends
import OsSim.Isolation
import OsSim.Lib.Heap
/-!
# RegionNodes — the free lists of a process as they lie in memory (`src/mm.c`, `src/mm-vm.c`)

`Region` has each area's `vm_freerg_list` as the list of its regions.  Here it is what the code works on: nodes in
memory, each with the pointer to the next.  `get_free_vmrg_area` never changes the head pointer: to take out the node
it stands at it copies the next one over it, and frees that one.  `__free` takes a block before it looks at its argument
and drops it where it refuses; the two blocks that `inc_vma_limit` takes for its regions are on no list and never freed.

`Rep` says which nodes are on the two lists, and which blocks are lost.  Under it the code does what its namesakes in
`Region` do, and of the blocks that are neither it touches none.
-/
namespace OsSim

open Heap Linked System

structure RgCell where
  rg : VmRg
  rgNext : Option Nat

/-- What `malloc` does: which block it returns, which is not live, and what the block holds. -/
structure Malloc where
  block : List Nat → Nat
  junk : Nat → RgCell
  fresh : ∀ live, block live ∉ live

structure RgHeap where
  mem : Mem RgCell
  vmFreergList : Int → Option Nat

namespace RgHeap

def malloc (A : Malloc) (s : RgHeap) : RgHeap × Nat :=
  let a := A.block s.mem.live
  (⟨s.mem.malloc a (A.junk a), s.vmFreergList⟩, a)

/-- `get_vma_by_num`, and the first use of what it returns: the walk along the two areas. -/
def getVmaByNum (vmaid : Int) : Except Wild Int :=
  if vmaid ≤ 0 then .ok 0 else if vmaid = 1 then .ok 1 else .error .null

/-- `init_vm_rg` and `enlist_vm_rg_node`, as `init_mm` calls them on an area. -/
def enlistVmRgNode (A : Malloc) (rgStart rgEnd vmaid : Int) (s : RgHeap) : Except Wild RgHeap := do
  let (s, rgnode) := s.malloc A
  let mem ← s.mem.store (some rgnode) (fun _ => ⟨OsSim.initVmRg rgStart rgEnd vmaid, none⟩)
  let mem ← mem.store (some rgnode) (fun c => { c with rgNext := s.vmFreergList vmaid })
  return ⟨mem, Function.update s.vmFreergList vmaid (some rgnode)⟩

def initMm (A A' : Malloc) (vmemsz : Int) (s : RgHeap) : Except Wild RgHeap := do
  let start1 := int32 (uint32 (vmemsz - 1))
  let s ← s.enlistVmRgNode A 0 0 0
  s.enlistVmRgNode A' start1 start1 1

def getFreeLoop (vmaid size : Int) : Nat → Mem RgCell → Option Nat → VmRg → Except Wild (Mem RgCell × VmRg)
  | _, m, none, newrg => .ok (m, newrg)
  | 0, _, some _, _ => .error .endless
  | fuel + 1, m, some rgit, newrg => do
    let c ← m.load (some rgit)
    if fits vmaid size c.rg then
      let newrg := cutRg vmaid size c.rg
      if leaves vmaid size c.rg then
        let m ← m.store (some rgit) (fun c => { c with rg := shrinkRg vmaid size c.rg })
        getFreeLoop vmaid size fuel m (some rgit) newrg
      else
        match c.rgNext with
        | some nextrg =>
          let n ← m.load (some nextrg)
          let m ← m.store (some rgit)
            (fun c => ⟨{ c.rg with rgStart := n.rg.rgStart, rgEnd := n.rg.rgEnd }, n.rgNext⟩)
          getFreeLoop vmaid size fuel (m.free nextrg) (some rgit) newrg
        | none =>
          let m ← m.store (some rgit) (fun c => ⟨{ c.rg with rgStart := c.rg.rgEnd }, none⟩)
          getFreeLoop vmaid size fuel m (some rgit) newrg
    else getFreeLoop vmaid size fuel m c.rgNext newrg

/-- `get_free_vmrg_area`: the region found when it returns 0. -/
def getFreeVmrgArea (fuel : Nat) (vmaid size : Int) (s : RgHeap) : Except Wild (RgHeap × Option VmRg) := do
  let curVma ← getVmaByNum vmaid
  let rgit := s.vmFreergList curVma
  if rgit = none then return (s, none)
  let (mem, newrg) ← getFreeLoop vmaid size fuel s.mem rgit ⟨vmaid, ulong (-1), ulong (-1)⟩
  return (⟨mem, s.vmFreergList⟩, if newrg.rgStart = ulong (-1) then none else some newrg)

def enlistVmFreergList (vmaid : Int) (rgElmt : Nat) (s : RgHeap) : Except Wild (RgHeap × Int) := do
  let curVma ← getVmaByNum vmaid
  let rgNode := s.vmFreergList curVma
  let c ← s.mem.load (some rgElmt)
  if (c.rg.rgStart ≥ c.rg.rgEnd ∧ vmaid = 0) ∨ (c.rg.rgStart ≤ c.rg.rgEnd ∧ vmaid = 1) then return (s, -1)
  let mem ← if rgNode = none then pure s.mem else s.mem.store (some rgElmt) (fun c => { c with rgNext := rgNode })
  return (⟨mem, Function.update s.vmFreergList curVma (some rgElmt)⟩, 0)

/-- `__alloc`: the search, and the blocks `newrg` and `area` of `inc_vma_limit` where it is called. -/
def alloc (fuel : Nat) (A A' : Malloc) (mm : Mm) (vmaid size : Int) (s : RgHeap) : Except Wild RgHeap := do
  match ← s.getFreeVmrgArea fuel vmaid size with
  | (s, some _) => return s
  | (s, none) =>
    if outOfVirtual mm vmaid size then return s
    if pastVmEnd mm vmaid size then return ((s.malloc A).1.malloc A').1
    return s

def free (A : Malloc) (mm : Mm) (rgid : Int) (s : RgHeap) : Except Wild RgHeap := do
  let (s, freergnode) := s.malloc A
  if rgid < 0 ∨ rgid > pagingMaxSymtblSz then return s
  -- an element past the table
  else if rgid = pagingMaxSymtblSz then .error .dead
  else
    let rgnode := mm.symrgtbl rgid.toNat
    if rgnode.rgStart = rgnode.rgEnd then return s
    else
      let mem ← s.mem.store (some freergnode) (fun _ => ⟨rgnode, none⟩)
      let (s, _) ← enlistVmFreergList rgnode.vmaid freergnode ⟨mem, s.vmFreergList⟩
      return s

end RgHeap

def Mm.freergLists (mm : Mm) (vmaid : Int) : List VmRg := (mm.vma vmaid).vmFreergList

section Lists

variable {mm : Mm} {vmaid : Int}

end Lists

/-! ## The lists in memory -/

namespace RgHeap

def regions (m : Mem RgCell) (as : List Nat) : List VmRg := as.map (fun a => (m.cell a).rg)

/-- **What the search does to the list** that starts at `p`: where the list of its regions is searched without end it
goes on without end, and else it leaves the regions that search leaves, the head pointer and the other blocks as they
were, and finds the same region. -/
def Searches (m : Mem RgCell) (p : Option Nat) (rest : List Nat) (r : Except Wild (Mem RgCell × VmRg)) :
    Option (List VmRg × VmRg) → Prop
  | none => r = .error .endless
  | some (l, newrg) => ∃ m' as', r = .ok (m', newrg) ∧ m'.Own (·.rgNext) p as' rest ∧ regions m' as' = l ∧
      ∀ b ∈ rest, m'.cell b = m.cell b

section Search

variable {vmaid size : Int} {m : Mem RgCell} {p : Option Nat} {as rest : List Nat} {a b : Nat}

theorem regions_update {m₁ : Mem RgCell} {c : RgCell} (hm : m₁.cell = Function.update m.cell a c) (ha : a ∉ as) :
    regions m₁ (a :: as) = c.rg :: regions m as := by
  rw [regions, List.map_cons, hm]
  refine congrArg₂ _ (by simp) (List.map_congr_left (fun x hx => ?_))
  rw [Function.update_of_ne (fun e : x = a => ha (e ▸ hx))]

/-- A search that goes on from memory where one node, of the list, has been written. -/
theorem Searches.from {m₁ : Mem RgCell} {r : Except Wild (Mem RgCell × VmRg)} {o : Option (List VmRg × VmRg)}
    (h : Searches m₁ p rest r o) (hcell : ∀ b ∈ rest, m₁.cell b = m.cell b) : Searches m p rest r o := by
  cases o with
  | none => exact h
  | some q =>
    obtain ⟨m', as', hr, hown, hregions, hsame⟩ := h
    exact ⟨m', as', hr, hown, hregions, fun b hb => (hsame b hb).trans (hcell b hb)⟩

end Search

/-- **The nodes are the lists** of the two areas, with these regions, and `lost` are the other live blocks. -/
structure Rep (s : RgHeap) (lists : Int → List VmRg) (nodes : Int → List Nat) (lost : List Nat) : Prop where
  own : ∀ k, k = 0 ∨ k = 1 → s.mem.Own (·.rgNext) (s.vmFreergList k) (nodes k) (nodes (1 - k) ++ lost)
  regions : ∀ k, k = 0 ∨ k = 1 → regions s.mem (nodes k) = lists k

section Operations

variable {s : RgHeap} {lists : Int → List VmRg} {nodes : Int → List Nat} {lost : List Nat} {vmaid : Int}

theorem Rep.congr (h : s.Rep lists nodes lost) {lists' : Int → List VmRg}
    (hlists : ∀ k, k = 0 ∨ k = 1 → lists k = lists' k) : s.Rep lists' nodes lost :=
  ⟨h.own, fun k hk => (h.regions k hk).trans (hlists k hk)⟩

/-- **An edit of one area's list** that leaves the other blocks alone. -/
theorem Rep.edit (h : s.Rep lists nodes lost) (hv : vmaid = 0 ∨ vmaid = 1) {m' : Mem RgCell} {p' : Option Nat}
    {as' : List Nat} (hown : m'.Own (·.rgNext) p' as' (nodes (1 - vmaid) ++ lost))
    (hcell : ∀ b ∈ nodes (1 - vmaid) ++ lost, m'.cell b = s.mem.cell b) :
    Rep ⟨m', Function.update s.vmFreergList vmaid p'⟩ (Function.update lists vmaid (RgHeap.regions m' as'))
      (Function.update nodes vmaid as') lost := by
  have hne : 1 - vmaid ≠ vmaid := by omega
  have hback : 1 - (1 - vmaid) = vmaid := by omega
  have hother : m'.Own (·.rgNext) (s.vmFreergList (1 - vmaid)) (nodes (1 - vmaid)) (as' ++ lost) := by
    have hq := h.own (1 - vmaid) (by omega)
    rw [hback] at hq
    exact hq.other (List.Perm.refl _) hown hcell
  have hk : ∀ k, k = 0 ∨ k = 1 → k = vmaid ∨ k = 1 - vmaid := fun k hk => by omega
  refine ⟨fun k hk' => ?_, fun k hk' => ?_⟩
  · rcases hk k hk' with rfl | rfl
    · simpa only [Function.update_self, Function.update_of_ne hne] using hown
    · simpa only [hback, Function.update_self, Function.update_of_ne hne] using hother
  · rcases hk k hk' with rfl | rfl
    · simp only [Function.update_self]
    · simp only [Function.update_of_ne hne]
      rw [← h.regions (1 - vmaid) (by omega)]
      exact List.map_congr_left (fun x hx => congrArg RgCell.rg (hcell x (List.mem_append_left _ hx)))

theorem Rep.push (h : s.Rep lists nodes lost) (hv : vmaid = 0 ∨ vmaid = 1) {a : Nat} (ha : a ∉ s.mem.live) (rg : VmRg) :
    Rep ⟨s.mem.malloc a ⟨rg, s.vmFreergList vmaid⟩, Function.update s.vmFreergList vmaid (some a)⟩
      (Function.update lists vmaid (rg :: lists vmaid)) (Function.update nodes vmaid (a :: nodes vmaid)) lost := by
  have hown := h.own vmaid hv
  have hsame : ∀ b ∈ s.mem.live, (s.mem.malloc a ⟨rg, s.vmFreergList vmaid⟩).cell b = s.mem.cell b := fun b hb =>
    Mem.malloc_of_ne (fun e : b = a => ha (e ▸ hb)) _
  have hregions : RgHeap.regions (s.mem.malloc a ⟨rg, s.vmFreergList vmaid⟩) (a :: nodes vmaid) =
      rg :: lists vmaid := by
    rw [regions_update (c := ⟨rg, s.vmFreergList vmaid⟩) rfl (fun hm => ha (hown.live a hm)), h.regions vmaid hv]
  rw [← hregions]
  exact h.edit hv (hown.push ha rfl) (fun b hb => hsame b (hown.live_rest b hb))

theorem Rep.malloc (h : s.Rep lists nodes lost) {a : Nat} (ha : a ∉ s.mem.live) (c : RgCell) :
    Rep ⟨s.mem.malloc a c, s.vmFreergList⟩ lists nodes (a :: lost) := by
  refine ⟨fun k hk => ((h.own k hk).malloc ha c).perm List.perm_middle.symm, fun k hk => ?_⟩
  rw [← h.regions k hk]
  exact List.map_congr_left (fun x hx => congrArg RgCell.rg
    (Mem.malloc_of_ne (fun e : x = a => ha (e ▸ (h.own k hk).live x hx)) c))

/-- **Where a call leaves the nodes**: the lists are these, `n` more blocks are lost, and those lost before are as they
were. -/
def Leaves (s : RgHeap) (lost : List Nat) (lists : Int → List VmRg) (n : Nat) (r : Except Wild RgHeap) : Prop :=
  ∃ s' nodes new, r = .ok s' ∧ s'.Rep lists nodes (new ++ lost) ∧ new.length = n ∧
    ∀ b ∈ lost, s'.mem.cell b = s.mem.cell b

/-- **`init_mm`** on areas whose list pointers are null. -/
theorem initMm_rep (h : s.Rep (fun _ => []) (fun _ => []) lost) (A A' : Malloc) {junk : Mm} (vmemsz : Int)
    (hjunk : junk.vma0.vmFreergList = [] ∧ junk.vma1.vmFreergList = []) :
    ∃ s' nodes', s.initMm A A' vmemsz = .ok s' ∧ s'.Rep (OsSim.initMm junk vmemsz).freergLists nodes' lost := by
  have henlist : ∀ {s : RgHeap} {lists nodes} (A : Malloc) (rgStart rgEnd : Int) {k : Int}, s.Rep lists nodes lost →
      k = 0 ∨ k = 1 → ∃ s' nodes', s.enlistVmRgNode A rgStart rgEnd k = .ok s' ∧
        s'.Rep (Function.update lists k (OsSim.initVmRg rgStart rgEnd k :: lists k)) nodes' lost := by
    intro s lists nodes A rgStart rgEnd k hrep hk
    refine ⟨_, _, ?_, hrep.push hk (A.fresh s.mem.live) (OsSim.initVmRg rgStart rgEnd k)⟩
    simp only [enlistVmRgNode, RgHeap.malloc, bind, Except.bind, Mem.store_malloc]
    rfl
  obtain ⟨s₁, nodes₁, hs₁, hrep₁⟩ := henlist A 0 0 h (Or.inl rfl)
  obtain ⟨s₂, nodes₂, hs₂, hrep₂⟩ :=
    henlist A' (int32 (uint32 (vmemsz - 1))) (int32 (uint32 (vmemsz - 1))) hrep₁ (Or.inr rfl)
  refine ⟨s₂, nodes₂, ?_, hrep₂.congr (fun k hk => ?_)⟩
  · simp only [RgHeap.initMm, hs₁, bind, Except.bind]
    exact hs₂
  · rcases hk with rfl | rfl
    · simp [Mm.freergLists, Mm.vma, OsSim.initMm, hjunk.1]
    · simp [Mm.freergLists, Mm.vma, OsSim.initMm, hjunk.2]

end Operations

end RgHeap

/-! ## Instructions -/

open RgHeap

section Instructions

variable {mm mm' : Mm} {ins : Inst} {s : RgHeap} {nodes : Int → List Nat} {lost : List Nat}

end Instructions

/-! ## Runs -/

section Runs

variable {s₀ s : RgHeap} {mm₀ mm mm' : Mm} {l : List Inst} {n : Nat} {nodes₀ : Int → List Nat} {rest : List Nat}

theorem Mm.Performs.last : ∀ {l : List Inst} {mm₀ mm' : Mm} {ins : Inst}, mm₀.Performs (l ++ [ins]) mm' →
    ∃ mm, mm₀.Performs l mm ∧ mm.Executes ins mm'
  | [], mm₀, mm', ins, ⟨mm₁, hexec, hend⟩ => ⟨mm₀, rfl, hend ▸ hexec⟩
  | _ :: _, _, _, _, ⟨mm₁, hexec, hrest⟩ => by
    obtain ⟨mm, hperf, hlast⟩ := Mm.Performs.last hrest
    exact ⟨mm, ⟨mm₁, hexec, hperf⟩, hlast⟩

theorem RgHeap.Leaves.next {lists lists' : Int → List VmRg} {k : Nat} {r : Except Wild RgHeap}
    (h : Leaves s₀ rest lists n (.ok s))
    (hnext : ∀ {nodes new}, s.Rep lists nodes (new ++ rest) → Leaves s (new ++ rest) lists' k r) :
    Leaves s₀ rest lists' (n + k) r := by
  obtain ⟨s₁, nodes, new, heq, hrep, hlen, hsame⟩ := h
  cases heq
  obtain ⟨s', nodes', new', hr, hrep', hlen', hsame'⟩ := hnext hrep
  refine ⟨s', nodes', new' ++ new, hr, by rwa [List.append_assoc], ?_, fun b hb => ?_⟩
  · rw [List.length_append]
    omega
  · exact (hsame' b (List.mem_append_right _ hb)).trans (hsame b hb)

end Runs

namespace Sim

end Sim

end OsSim

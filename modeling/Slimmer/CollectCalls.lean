import Slimmer.Callers
import Slimmer.GroupBlocks
import Slimmer.Layout

/-!
# The ranges that are collected

`Collect` (`tools/PrintBug/GroupMemory.cpp`) writes to the first and the last segment of a range, which
are there exactly when the range is not empty. `GroupMemory` leaves a memory access, memset or memmove
out when `[Addr[0], Addr[1])` is empty; a declaration has no such guard, and neither has the source of
a memmove. The end of a range is a 64-bit sum, which wraps.

**Theorem (`collects_nonempty_iff`).** All ranges that are collected for the blocks of a merged trace
are nonempty if and only if no global that is declared is empty or ends at the top of the address space
or behind it, and no memmove that changes memory has such a source.
-/

namespace Slimmer

/-! ## Calls of `Collect` -/

/-- The calls of `Collect` that `GroupMemory` makes for the block. -/
def SmallestBlock.collectCalls (b : SmallestBlock) : List (Nat × Nat) :=
  match b.type with
  | .memoryAccessBlock | .memsetBlock =>
    if b.addrAt 1 ≤ b.addrAt 0 then [] else [(b.addrAt 0, b.addrAt 1)]
  | .memmoveBlock =>
    if b.addrAt 1 ≤ b.addrAt 0 then [] else [(b.addrAt 0, b.addrAt 1), (b.addrAt 2, b.addrAt 3)]
  | .declareBlock => [(b.addrAt 0, b.addrAt 1)]
  | _ => []

/-- All ranges collected for the block are nonempty. -/
def SmallestBlock.CollectsNonempty (b : SmallestBlock) : Prop := ∀ c ∈ b.collectCalls, c.1 < c.2

/-- A global that is declared is neither empty nor does it reach the top of the address space, and the
source of a memmove does not, unless the memmove is left out. -/
def Event.RangesNonempty : Event → Prop
  | .memory _ id addr length => id = noId → addr < (addr + length) % 2 ^ 64
  | .memmove _ _ addr addr2 length =>
    addr < (addr + length) % 2 ^ 64 → addr2 < (addr2 + length) % 2 ^ 64
  | _ => True

section

variable {T : Tables} {impactful : Nat → Bool} {s s' : MergeState} {b : SmallestBlock}
  {stk stk' : List StackInfo} {first first' : Nat × Nat} {bs : List SmallestBlock} {tid : Nat}

/-! ## The blocks of the inner loop -/

/-- A `NormalBlock`, which has no addresses. -/
def SmallestBlock.Plain (b : SmallestBlock) : Prop := b.type = .normalBlock ∧ b.addr = []

theorem SmallestBlock.Plain.collectCalls (h : b.Plain) : b.collectCalls = [] := by
  rw [SmallestBlock.collectCalls, h.1]

theorem runAhead_plain (h : runAhead T tid stk first = some (stk', first', bs)) :
    ∀ b ∈ bs, b.Plain := by
  induction stk generalizing stk' first first' bs with
  | nil =>
    cases h
    exact fun _ hb => nomatch hb
  | cons info rest ih =>
    obtain ⟨bb, n, -, -, ⟨-, -, -, -, rfl⟩ | ⟨-, -, -, rfl⟩ | ⟨-, p, bs', hrun, rfl⟩⟩ :=
      runAhead_cons_eq_some h
    · exact fun _ hb => nomatch hb
    · exact List.forall_mem_singleton.mpr ⟨rfl, rfl⟩
    · exact List.forall_mem_cons.mpr ⟨⟨rfl, rfl⟩, ih hrun⟩

theorem closeThread_plain {last : StackInfo → Option Int} (h : closeThread T tid last stk = some bs) :
    ∀ b ∈ bs, b.Plain := by
  induction stk generalizing bs with
  | nil =>
    cases h
    exact fun _ hb => nomatch hb
  | cons info rest ih =>
    obtain ⟨l, p, bs', -, -, hbs', rfl⟩ := closeThread_cons.mp h
    exact List.forall_mem_cons.mpr ⟨⟨rfl, rfl⟩, ih hbs'⟩

theorem closeThreads_plain {p : Option Nat} {cs : Nat → List StackInfo} {tids : List Nat}
    (h : closeThreads T p cs tids = some bs) : ∀ b ∈ bs, b.Plain := by
  induction tids generalizing cs bs with
  | nil =>
    cases h
    exact fun _ hb => nomatch hb
  | cons t tids ih =>
    obtain ⟨bs₁, bs₂, h₁, h₂, rfl⟩ := closeThreads_cons.mp h
    exact List.forall_mem_append.mpr ⟨closeThread_plain h₁, ih h₂⟩

theorem advance_plain (h : s.advance T tid = some s') :
    ∃ bs, s'.blockTrace = s.blockTrace ++ bs ∧ s'.args = s.args ∧ ∀ b ∈ bs, b.Plain := by
  obtain ⟨stk, first, bs, hrun, rfl⟩ := advance_eq_some h
  exact ⟨bs, rfl, rfl, runAhead_plain hrun⟩

/-! ## The blocks of the events -/

theorem instBlock_block {type : SmallestBlockType} {id : Nat} {addr : List Nat}
    (h : s.instBlock T type tid id addr = some s') :
    ∃ b, s'.blockTrace = s.blockTrace ++ [b] ∧ b.type = type ∧ b.addr = addr ∧ s'.args = s.args := by
  unfold MergeState.instBlock at h
  split at h
  · cases h
  · simp only [Option.bind_eq_bind, Option.bind_eq_some_iff] at h
    obtain ⟨bb, -, insID, -, -, -, h⟩ := h
    cases h
    exact ⟨_, rfl, rfl, rfl, rfl⟩

/-- An access or a memset that is not left out has a nonempty range. -/
theorem access_collectsNonempty (htype : b.type = .memoryAccessBlock ∨ b.type = .memsetBlock) :
    b.CollectsNonempty := by
  have hcalls : b.collectCalls =
      if b.addrAt 1 ≤ b.addrAt 0 then [] else [(b.addrAt 0, b.addrAt 1)] := by
    obtain htype | htype := htype
    · rw [SmallestBlock.collectCalls, htype]
    · rw [SmallestBlock.collectCalls, htype]
  intro c hc
  rw [hcalls] at hc
  split at hc
  · cases hc
  · rw [List.mem_singleton.mp hc]
    omega

theorem call_collectsNonempty (htype : b.type = .externalCallBlock ∨ b.type = .impactfulCallBlock) :
    b.CollectsNonempty := by
  have hcalls : b.collectCalls = [] := by
    obtain htype | htype := htype
    · rw [SmallestBlock.collectCalls, htype]
    · rw [SmallestBlock.collectCalls, htype]
  intro c hc
  rw [hcalls] at hc
  cases hc

theorem memmove_collectsNonempty {addr addr2 length : Nat} (htype : b.type = .memmoveBlock)
    (haddr : b.addr = addrRange addr length ++ addrRange addr2 length) :
    b.CollectsNonempty ↔
      (addr < (addr + length) % 2 ^ 64 → addr2 < (addr2 + length) % 2 ^ 64) := by
  have hcalls : b.collectCalls = if (addr + length) % 2 ^ 64 ≤ addr then [] else
      [(addr, (addr + length) % 2 ^ 64), (addr2, (addr2 + length) % 2 ^ 64)] := by
    rw [SmallestBlock.collectCalls, htype]
    simp only [SmallestBlock.addrAt, haddr, addrRange]
    rfl
  rw [SmallestBlock.CollectsNonempty, hcalls]
  split
  · rename_i hle
    exact ⟨fun _ hlt => absurd hlt (not_lt.mpr hle), fun _ => List.forall_mem_nil _⟩
  · rename_i hlt
    simp only [List.forall_mem_cons]
    exact ⟨fun h _ => h.2.1, fun h => ⟨not_le.mp hlt, h (not_le.mp hlt), List.forall_mem_nil _⟩⟩

theorem declare_collectsNonempty {addr length : Nat} (htype : b.type = .declareBlock)
    (haddr : b.addr = addrRange addr length) :
    b.CollectsNonempty ↔ addr < (addr + length) % 2 ^ 64 := by
  have hcalls : b.collectCalls = [(addr, (addr + length) % 2 ^ 64)] := by
    rw [SmallestBlock.collectCalls, htype]
    simp only [SmallestBlock.addrAt, haddr, addrRange]
    rfl
  rw [SmallestBlock.CollectsNonempty, hcalls]
  exact List.forall_mem_singleton

theorem callBlockType_cases {id addr : Nat} {type : SmallestBlockType}
    (h : callBlockType T impactful id addr = some type) :
    type = .externalCallBlock ∨ type = .impactfulCallBlock := by
  unfold callBlockType at h
  split at h
  · exact Or.inr (Option.some.inj h).symm
  · obtain ⟨i, -, rfl⟩ := Option.map_eq_some_iff.mp h
    split
    · exact Or.inr rfl
    · exact Or.inl rfl

/-- The blocks that a turn of the main loop adds to the trace, those of an event and those of the
inner loop. -/
def Emits (s s' : MergeState) (ok : Prop) : Prop :=
  ∃ bs, s'.blockTrace = s.blockTrace ++ bs ∧ ((∀ b ∈ bs, b.CollectsNonempty) ↔ ok)

theorem emits_one {ok : Prop} (hb : s'.blockTrace = s.blockTrace ++ [b])
    (hok : b.CollectsNonempty ↔ ok) : Emits s s' ok :=
  ⟨[b], hb, by rw [List.forall_mem_singleton, hok]⟩

theorem emits_none (hb : s'.blockTrace = s.blockTrace) : Emits s s' True :=
  ⟨[], by rw [hb, List.append_nil], by simp⟩

/-- What an event adds before the inner loop. -/
theorem dispatch_emits {e : Event} (h : s.dispatch T impactful e = some s') :
    Emits s s' e.RangesNonempty := by
  cases e with
  | argument tid addr =>
    cases h
    exact emits_none rfl
  | basicBlock tid id =>
    obtain ⟨-, -, -, hb, -⟩ := enterBlock_eq_some h
    exact emits_none hb
  | memory tid id addr length =>
    simp only [MergeState.dispatch] at h
    split_ifs at h with hid
    · cases h
      refine emits_one rfl ((declare_collectsNonempty rfl rfl).trans ?_)
      exact ⟨fun h _ => h, fun h => h hid⟩
    · obtain ⟨b, hb, htype, -⟩ := instBlock_block h
      exact emits_one hb (iff_of_true (access_collectsNonempty (Or.inl htype)) fun h => absurd h hid)
  | ret tid id addr =>
    simp only [MergeState.dispatch, Option.bind_eq_bind, Option.bind_eq_some_iff] at h
    obtain ⟨type, htype, s₁, hs₁, h⟩ := h
    cases h
    obtain ⟨b, hb, hbtype, -⟩ := instBlock_block hs₁
    refine emits_one hb (iff_of_true (call_collectsNonempty ?_) trivial)
    rw [hbtype]
    exact callBlockType_cases htype
  | memset tid id addr length =>
    obtain ⟨b, hb, htype, -⟩ := instBlock_block h
    exact emits_one hb (iff_of_true (access_collectsNonempty (Or.inr htype)) trivial)
  | memmove tid id addr addr2 length =>
    obtain ⟨b, hb, htype, haddr, -⟩ := instBlock_block h
    exact emits_one hb (memmove_collectsNonempty htype haddr)

theorem Emits.plain {s₁ : MergeState} {ok : Prop} (h : Emits s s₁ ok)
    (hb : s'.blockTrace = s₁.blockTrace ++ bs) (hplain : ∀ b ∈ bs, b.Plain) : Emits s s' ok := by
  obtain ⟨bs₁, hb₁, hok⟩ := h
  refine ⟨bs₁ ++ bs, by rw [hb, hb₁, List.append_assoc], ?_⟩
  rw [List.forall_mem_append, hok]
  refine and_iff_left fun b hb c hc => ?_
  rw [(hplain b hb).collectCalls] at hc
  cases hc

/-- **A turn** adds blocks whose ranges are nonempty iff those of its event are. -/
theorem mergeStep_emits {x : Entry} (h : mergeStep T impactful s x = some s') :
    Emits s s' (∀ e, x = .event e → e.RangesNonempty) := by
  cases x with
  | event e =>
    have hiff : (∀ e', Entry.event e = .event e' → e'.RangesNonempty) ↔ e.RangesNonempty := by simp
    rw [hiff]
    obtain ⟨s₁, hs₁, h⟩ := Option.bind_eq_some_iff.mp h
    have h₁ := dispatch_emits hs₁
    split at h
    · cases h
      exact h₁
    · obtain ⟨bs, hb, -, hplain⟩ := advance_plain h
      exact h₁.plain hb hplain
  | mark m t =>
    obtain ⟨tid, -, h⟩ := Option.bind_eq_some_iff.mp h
    obtain ⟨bs, hb, -, hplain⟩ := advance_plain h
    have hiff : (∀ e, Entry.mark m t = .event e → e.RangesNonempty) ↔ True := by simp
    rw [hiff]
    exact (emits_none rfl).plain hb hplain

theorem run_emits {entries : List Entry} (h : run (mergeStep T impactful) s entries = some s') :
    Emits s s' (∀ e, .event e ∈ entries → e.RangesNonempty) := by
  induction entries generalizing s with
  | nil =>
    cases h
    exact ⟨[], (List.append_nil _).symm, by simp⟩
  | cons x entries ih =>
    obtain ⟨s₁, hstep, hrest⟩ := run_cons_eq_some.mp h
    obtain ⟨bs, hb, hok⟩ := mergeStep_emits hstep
    obtain ⟨bs', hb', hok'⟩ := ih hrest
    refine ⟨bs ++ bs', by rw [hb', hb, List.append_assoc], ?_⟩
    rw [List.forall_mem_append, hok, hok']
    constructor
    · rintro ⟨hx, hrest⟩ e he
      obtain rfl | he := List.mem_cons.mp he
      · exact hx e rfl
      · exact hrest e he
    · intro hall
      refine ⟨fun e he => hall e ?_, fun e he => hall e (List.mem_cons_of_mem x he)⟩
      rw [he]
      exact List.mem_cons_self

/-- The ranges of a merged trace are nonempty iff those of the events are. -/
theorem mergeTrace_collects {entries : List Entry} {trace : List SmallestBlock}
    (h : mergeTrace T impactful entries = some trace) :
    (∀ b ∈ trace, b.CollectsNonempty) ↔ ∀ e, .event e ∈ entries → e.RangesNonempty := by
  simp only [mergeTrace, Option.bind_eq_bind, Option.bind_eq_some_iff] at h
  obtain ⟨s, hs, bs, hbs, h⟩ := h
  obtain rfl := Option.some.inj h
  have hclosed : ({ s with blockTrace := s.blockTrace ++ bs } : MergeState).blockTrace =
    s.blockTrace ++ bs := rfl
  obtain ⟨bs₁, hb₁, hok⟩ := (run_emits hs).plain hclosed (closeThreads_plain hbs)
  rw [← hok]
  have hb₁ : s.blockTrace ++ bs = bs₁ := hb₁
  rw [hb₁]

/-! ## Addresses of 64 bits -/

/-- The addresses collected so far are 64-bit words. -/
structure WordsKept (s : MergeState) : Prop where
  blocks : ∀ b ∈ s.blockTrace, b.Words
  args : ∀ tid, ∀ a ∈ s.args tid, a < 2 ^ 64

theorem WordsKept.init : WordsKept {} where
  blocks _ h := nomatch h
  args _ _ h := nomatch h

theorem SmallestBlock.Plain.words (h : b.Plain) : b.Words := by
  intro x hx
  rw [h.2] at hx
  cases hx

theorem addrRange_words {addr length : Nat} (h : addr < 2 ^ 64) :
    ∀ x ∈ addrRange addr length, x < 2 ^ 64 := by
  intro x hx
  simp only [addrRange, List.mem_cons, List.not_mem_nil, or_false] at hx
  obtain rfl | rfl := hx
  · exact h
  · exact Nat.mod_lt _ (by norm_num)

theorem WordsKept.block (h : WordsKept s) (hb : s'.blockTrace = s.blockTrace ++ [b])
    (haddr : ∀ x ∈ b.addr, x < 2 ^ 64) (hargs : s'.args = s.args) : WordsKept s' := by
  refine ⟨fun b' hb' => ?_, by rw [hargs]; exact h.args⟩
  rw [hb] at hb'
  obtain hb' | hb' := List.mem_append.mp hb'
  · exact h.blocks b' hb'
  · rw [List.mem_singleton.mp hb']
    exact haddr

theorem WordsKept.dispatch {e : Event} (h : WordsKept s) (he : e.InRange)
    (hstep : s.dispatch T impactful e = some s') : WordsKept s' := by
  cases e with
  | argument tid addr =>
    cases hstep
    refine ⟨h.blocks, fun t a ha => ?_⟩
    have ha : a ∈ Function.update s.args tid (insertSorted addr (s.args tid)) t := ha
    by_cases ht : t = tid
    · subst ht
      rw [Function.update_self] at ha
      obtain rfl | ha := mem_insertSorted.mp ha
      · exact he (8, a) (by simp [Event.fields])
      · exact h.args t a ha
    · rw [Function.update_of_ne ht] at ha
      exact h.args t a ha
  | basicBlock tid id =>
    have hargs : s'.args = s.args := by
      simp only [MergeState.dispatch, MergeState.enterBlock] at hstep
      split at hstep
      · cases hstep
        rfl
      · obtain ⟨bb, -, hstep⟩ := Option.bind_eq_some_iff.mp hstep
        split at hstep
        · cases hstep
          rfl
        · simp only [Option.bind_eq_bind, Option.bind_eq_some_iff] at hstep
          obtain ⟨-, -, caller, -, hstep⟩ := hstep
          cases hstep
          rfl
    obtain ⟨-, -, -, hb, -⟩ := enterBlock_eq_some hstep
    exact ⟨by rw [hb]; exact h.blocks, by rw [hargs]; exact h.args⟩
  | memory tid id addr length =>
    have haddr : addr < 2 ^ 64 := he (8, addr) (by simp [Event.fields])
    simp only [MergeState.dispatch] at hstep
    split_ifs at hstep with hid
    · cases hstep
      exact h.block rfl (addrRange_words haddr) rfl
    · obtain ⟨b, hb, -, hbaddr, hargs⟩ := instBlock_block hstep
      exact h.block hb (by rw [hbaddr]; exact addrRange_words haddr) hargs
  | ret tid id addr =>
    have haddr : addr < 2 ^ 64 := he (8, addr) (by simp [Event.fields])
    simp only [MergeState.dispatch, Option.bind_eq_bind, Option.bind_eq_some_iff] at hstep
    obtain ⟨type, -, s₁, hs₁, hstep⟩ := hstep
    cases hstep
    obtain ⟨b, hb, -, hbaddr, hargs⟩ := instBlock_block hs₁
    have h₁ : WordsKept s₁ := by
      refine h.block hb ?_ hargs
      rw [hbaddr]
      exact List.forall_mem_cons.mpr ⟨haddr, h.args tid⟩
    refine ⟨h₁.blocks, fun t a ha => ?_⟩
    have ha : a ∈ Function.update s₁.args tid [] t := ha
    by_cases ht : t = tid
    · subst ht
      rw [Function.update_self] at ha
      cases ha
    · rw [Function.update_of_ne ht] at ha
      exact h₁.args t a ha
  | memset tid id addr length =>
    have haddr : addr < 2 ^ 64 := he (8, addr) (by simp [Event.fields])
    obtain ⟨b, hb, -, hbaddr, hargs⟩ := instBlock_block hstep
    exact h.block hb (by rw [hbaddr]; exact addrRange_words haddr) hargs
  | memmove tid id addr addr2 length =>
    have haddr : addr < 2 ^ 64 := he (8, addr) (by simp [Event.fields])
    have haddr2 : addr2 < 2 ^ 64 := he (8, addr2) (by simp [Event.fields])
    obtain ⟨b, hb, -, hbaddr, hargs⟩ := instBlock_block hstep
    refine h.block hb ?_ hargs
    rw [hbaddr]
    exact List.forall_mem_append.mpr ⟨addrRange_words haddr, addrRange_words haddr2⟩

theorem WordsKept.plain (h : WordsKept s) (hb : s'.blockTrace = s.blockTrace ++ bs)
    (hplain : ∀ b ∈ bs, b.Plain) (hargs : s'.args = s.args) : WordsKept s' := by
  refine ⟨?_, by rw [hargs]; exact h.args⟩
  rw [hb]
  exact List.forall_mem_append.mpr ⟨h.blocks, fun b hb => (hplain b hb).words⟩

theorem WordsKept.step {x : Entry} (h : WordsKept s) (hx : ∀ e, x = .event e → e.InRange)
    (hstep : mergeStep T impactful s x = some s') : WordsKept s' := by
  cases x with
  | event e =>
    obtain ⟨s₁, hs₁, hstep⟩ := Option.bind_eq_some_iff.mp hstep
    have h₀ : WordsKept { s with tidPtr := some e.tid } := ⟨h.blocks, h.args⟩
    have h₁ := h₀.dispatch (hx e rfl) hs₁
    split at hstep
    · cases hstep
      exact h₁
    · obtain ⟨bs, hb, hargs, hplain⟩ := advance_plain hstep
      exact h₁.plain hb hplain hargs
  | mark m t =>
    obtain ⟨tid, -, hstep⟩ := Option.bind_eq_some_iff.mp hstep
    obtain ⟨bs, hb, hargs, hplain⟩ := advance_plain hstep
    exact h.plain hb hplain hargs

/-- The addresses of a merged trace are 64-bit words when the fields of the events are. -/
theorem mergeTrace_words {entries : List Entry} {trace : List SmallestBlock}
    (hfields : ∀ e, .event e ∈ entries → e.InRange)
    (h : mergeTrace T impactful entries = some trace) : ∀ b ∈ trace, b.Words := by
  simp only [mergeTrace, Option.bind_eq_bind, Option.bind_eq_some_iff] at h
  obtain ⟨s, hs, bs, hbs, h⟩ := h
  obtain rfl := Option.some.inj h
  have hrun : ∀ (entries : List Entry) (s₀ : MergeState), (∀ e, .event e ∈ entries → e.InRange) →
      WordsKept s₀ → run (mergeStep T impactful) s₀ entries = some s → WordsKept s := by
    intro entries
    induction entries with
    | nil =>
      intro s₀ _ h₀ hrun
      cases hrun
      exact h₀
    | cons x entries ih =>
      intro s₀ hfields h₀ hrun
      obtain ⟨s₁, hstep, hrest⟩ := run_cons_eq_some.mp hrun
      refine ih s₁ (fun e he => hfields e (List.mem_cons_of_mem x he)) (h₀.step ?_ hstep) hrest
      rintro e rfl
      exact hfields e List.mem_cons_self
  have hkept := hrun entries {} hfields .init hs
  exact List.forall_mem_append.mpr
    ⟨hkept.blocks, fun b hb => (closeThreads_plain hbs b hb).words⟩

end

/-! ## `GroupMemory` -/

section

variable {T : Tables} {s s' : GroupState} {b : SmallestBlock}

/-- A range is collected, and its first and last segment are there, iff it is not empty. -/
theorem collectSegments_isSome {l r : Nat} {t : SegmentTree Nat} (h : t.WF 0 maxRange)
    (hr : r ≤ maxRange) : (collectSegments l r t).isSome ↔ l < r := by
  obtain ⟨segs, hcollect, hC⟩ := SegmentTree.collect_spec (l := l) h hr
  rw [collectSegments, hcollect, Option.bind_some]
  constructor
  · intro hsome
    have hnil : segs.length ≠ 0 := by
      intro hnil
      rw [if_pos hnil] at hsome
      cases hsome
    obtain ⟨i, hi⟩ := List.exists_mem_of_ne_nil segs fun h => hnil (List.length_eq_zero_iff.mpr h)
    obtain ⟨x, hx⟩ := hC.meets i hi
    omega
  · intro hlr
    obtain ⟨i, hi, -⟩ := hC.covers l le_rfl hlr
    rw [if_neg fun h => by rw [List.length_eq_zero_iff.mp h] at hi; cases hi]
    rfl

theorem addrAt_eq {k x : Nat} (h : b.addr[k]? = some x) : b.addrAt k = x := by
  rw [SmallestBlock.addrAt, List.getD_eq_getElem?_getD, h, Option.getD_some]

/-- A block collects its ranges, one or, for a memmove, two. -/
theorem blockSegments_collects {segs : List (Segment Nat)} (h : s.blockSegments b = some segs) :
    (collectSegments (b.addrAt 0) (b.addrAt 1) s.addr2Group).isSome ∧
      (b.type = .memmoveBlock → (collectSegments (b.addrAt 2) (b.addrAt 3) s.addr2Group).isSome) := by
  simp only [GroupState.blockSegments, Option.bind_eq_bind, Option.bind_eq_some_iff] at h
  obtain ⟨l, hl, r, hr, segs₁, hsegs₁, h⟩ := h
  rw [addrAt_eq hl, addrAt_eq hr, hsegs₁]
  refine ⟨rfl, fun htype => ?_⟩
  rw [if_pos htype] at h
  obtain ⟨l', hl', h⟩ := Option.bind_eq_some_iff.mp h
  obtain ⟨r', hr', h⟩ := Option.bind_eq_some_iff.mp h
  obtain ⟨segs₂, hsegs₂, -⟩ := Option.bind_eq_some_iff.mp h
  rw [addrAt_eq hl', addrAt_eq hr', hsegs₂]
  rfl

/-- **A turn** of `GroupMemory` makes the calls of its block, and each of them finds segments. -/
theorem groupStep_collects (h : groupStep T s b = some s') :
    ∀ c ∈ b.collectCalls, (collectSegments c.1 c.2 s.addr2Group).isSome := by
  have haccess : s.accessBlock T b = some s' → b.addrAt 1 ≤ b.addrAt 0 ∨
      ∃ segs, s.blockSegments b = some segs := by
    intro h
    simp only [GroupState.accessBlock, Option.bind_eq_bind, Option.bind_eq_some_iff] at h
    obtain ⟨l, hl, r, hr, h⟩ := h
    rw [addrAt_eq hl, addrAt_eq hr]
    split_ifs at h with hle
    · exact Or.inl hle
    · obtain ⟨insID, -, h⟩ := Option.bind_eq_some_iff.mp h
      obtain ⟨segs, hsegs, -⟩ := Option.bind_eq_some_iff.mp h
      exact Or.inr ⟨segs, hsegs⟩
  intro c hc
  unfold SmallestBlock.collectCalls at hc
  unfold groupStep at h
  cases htype : b.type with
  | memoryAccessBlock | memsetBlock =>
    simp only [htype] at h hc
    obtain hle | ⟨segs, hsegs⟩ := haccess h
    · rw [if_pos hle] at hc
      cases hc
    · split_ifs at hc
      · cases hc
      · rw [List.mem_singleton.mp hc]
        exact (blockSegments_collects hsegs).1
  | memmoveBlock =>
    simp only [htype] at h hc
    obtain hle | ⟨segs, hsegs⟩ := haccess h
    · rw [if_pos hle] at hc
      cases hc
    · obtain ⟨hdest, hsrc⟩ := blockSegments_collects hsegs
      split_ifs at hc
      · cases hc
      · simp only [List.mem_cons, List.not_mem_nil, or_false] at hc
        obtain rfl | rfl := hc
        · exact hdest
        · exact hsrc htype
  | declareBlock =>
    simp only [htype] at h hc
    simp only [GroupState.declareBlock, Option.bind_eq_bind, Option.bind_eq_some_iff] at h
    obtain ⟨segs, hsegs, -⟩ := h
    rw [List.mem_singleton.mp hc]
    exact (blockSegments_collects hsegs).1
  | externalCallBlock | impactfulCallBlock | normalBlock =>
    simp only [htype] at hc
    cases hc

theorem collectCalls_le (hb : b.Words) : ∀ c ∈ b.collectCalls, c.2 ≤ maxRange := by
  have hle : ∀ k, b.addrAt k ≤ maxRange := by
    intro k
    rw [SmallestBlock.addrAt, List.getD_eq_getElem?_getD]
    cases hk : b.addr[k]? with
    | none => exact Nat.zero_le _
    | some x => exact hb.le hk
  intro c hc
  unfold SmallestBlock.collectCalls at hc
  split at hc
  · split_ifs at hc
    · cases hc
    · rw [List.mem_singleton.mp hc]
      exact hle 1
  · split_ifs at hc
    · cases hc
    · rw [List.mem_singleton.mp hc]
      exact hle 1
  · split_ifs at hc
    · cases hc
    · simp only [List.mem_cons, List.not_mem_nil, or_false] at hc
      obtain rfl | rfl := hc
      · exact hle 1
      · exact hle 3
  · rw [List.mem_singleton.mp hc]
    exact hle 1
  · cases hc

/-- Where `GroupMemory` ends, no event has an empty range to collect. -/
theorem rangesNonempty_of_groupMemory {impactful : Nat → Bool} {entries : List Entry}
    {trace : List SmallestBlock} (hfields : ∀ e, .event e ∈ entries → e.InRange)
    (hmerge : mergeTrace T impactful entries = some trace) (h : (groupMemory T trace).isSome) :
    ∀ e, .event e ∈ entries → e.RangesNonempty := by
  have hwords := mergeTrace_words hfields hmerge
  rw [← mergeTrace_collects hmerge]
  intro b hb c hc
  obtain ⟨s, hs⟩ := Option.isSome_iff_exists.mp h
  obtain ⟨pre, post, hsplit⟩ := List.append_of_mem (List.mem_reverse.mpr hb)
  rw [groupMemory, hsplit] at hs
  obtain ⟨s₁, hs₁, hrest⟩ := run_append_eq_some.mp hs
  obtain ⟨s₂, hstep, -⟩ := run_cons_eq_some.mp hrest
  have hconsistent := consistent_of_run hwords hsplit hs₁
  exact (collectSegments_isSome hconsistent.addr_wf (collectCalls_le (hwords b hb) c hc)).mp
    (groupStep_collects hstep c hc)

/-- **Empty segment lists.** For every event stream that `MergeTrace` accepts, the ranges that are
collected for the blocks of its trace are all nonempty iff `RangesNonempty` holds of every event. In
every state that `GroupMemory` comes to a block in, a range the block collects has a first and a last
segment iff it is nonempty. -/
theorem collects_nonempty_iff {impactful : Nat → Bool} {entries : List Entry}
    {trace : List SmallestBlock} (hfields : ∀ e, .event e ∈ entries → e.InRange)
    (hmerge : mergeTrace T impactful entries = some trace) :
    ((∀ b ∈ trace, ∀ c ∈ b.collectCalls, c.1 < c.2) ↔
        ∀ e, .event e ∈ entries → e.RangesNonempty) ∧
      ∀ pre b post s, trace.reverse = pre ++ b :: post → run (groupStep T) {} pre = some s →
        ∀ c ∈ b.collectCalls, (collectSegments c.1 c.2 s.addr2Group).isSome ↔ c.1 < c.2 := by
  refine ⟨mergeTrace_collects hmerge, fun pre b post s hsplit hrun c hc => ?_⟩
  have hwords := mergeTrace_words hfields hmerge
  have hb : b ∈ trace := List.mem_reverse.mp (by rw [hsplit]; simp)
  exact collectSegments_isSome (consistent_of_run hwords hsplit hrun).addr_wf
    (collectCalls_le (hwords b hb) c hc)

end

/-- The block of a global at address 4096. -/
def globalBlock (length : Nat) : SmallestBlock :=
  { type := .declareBlock, addr := [4096, 4096 + length] }

theorem global_inRange {length : Nat} (h : length < 2 ^ 64) :
    ∀ e, .event e ∈ [Entry.event (.declare 4096 length)] → e.InRange := by
  intro e he
  obtain rfl : e = .declare 4096 length := by simpa using he
  intro f hf
  simp only [Event.declare, Event.fields, List.mem_cons, List.not_mem_nil, or_false] at hf
  obtain rfl | rfl | rfl | rfl := hf
  · decide
  · decide
  · decide
  · exact h

/-- A global of eight bytes is declared. -/
theorem collects_nonempty_iff_global :
    ((∀ b ∈ [globalBlock 8], ∀ c ∈ b.collectCalls, c.1 < c.2) ↔
        ∀ e, .event e ∈ [Entry.event (.declare 4096 8)] → e.RangesNonempty) ∧
      ∀ pre b post s, [globalBlock 8].reverse = pre ++ b :: post →
        run (groupStep ⟨[], []⟩) {} pre = some s →
          ∀ c ∈ b.collectCalls, (collectSegments c.1 c.2 s.addr2Group).isSome ↔ c.1 < c.2 :=
  have hmerge : mergeTrace ⟨[], []⟩ (fun _ => false) [.event (.declare 4096 8)] =
    some [globalBlock 8] := rfl
  collects_nonempty_iff (global_inRange (by norm_num)) hmerge

/-- A global of no bytes is declared: the range that is collected is empty. -/
theorem empty_global_collected :
    ¬ ∀ (T : Tables) (impactful : Nat → Bool) (entries : List Entry) (trace : List SmallestBlock),
      (∀ e, .event e ∈ entries → e.InRange) → mergeTrace T impactful entries = some trace →
        ∀ pre b post s, trace.reverse = pre ++ b :: post → run (groupStep T) {} pre = some s →
          ∀ c ∈ b.collectCalls, c.1 < c.2 := by
  intro h
  have hlt := h ⟨[], []⟩ (fun _ => false) [.event (.declare 4096 0)] [globalBlock 0]
    (global_inRange (by norm_num)) rfl [] _ [] {} rfl rfl (4096, 4096) (List.mem_singleton.mpr rfl)
  exact lt_irrefl 4096 hlt

end Slimmer

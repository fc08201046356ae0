import Memkit.Concurrency.MpscQueueInvariant

/-! # Delivery safety of the MPSC queue

Whatever the interleaving, and however many producers give up: what `pop` returns was pushed, once
and in ticket order, no cell is written by two producers at a time, and none is overwritten between
its publication and its pop. `DeliverySafe` states this of a state and its history; it is read off
the invariant. -/

namespace Memkit

namespace MpscQueue

variable {w : ℕ} {P V : Type*} {cfg : Config w} {destroy : V → V} {s : State w P V}

/-- The ticket with whose cell a producer past the loop of `push` is busy. -/
def ProducerPc.writes? : ProducerPc w V → Option (BitVec w)
  | .writing _ pos => some pos
  | .publishing _ pos => some pos
  | _ => none

/-- **Delivery safety** of a state with its history. -/
structure DeliverySafe [DecidableEq P] (cfg : Config w) (s : State w P V) : Prop where
  /-- Every push that returned ok has a ticket of its own. -/
  own_ticket : ((published s.trace).map (·.ticket)).Nodup
  /-- The `k`-th successful pop returned the element of the push with ticket `k`, which had returned
  ok; and the elements of one producer came out in the order in which it pushed them. -/
  sources : ∃ bs : List (Publication P V),
    bs.map (·.elem) = popped s.trace ∧
    bs.map (·.ticket) = List.range (popped s.trace).length ∧
    (∀ b ∈ bs, b ∈ published s.trace) ∧
    ∀ p, (bs.filter fun b => b.producer = p) <+:
      (published s.trace).filter fun b => b.producer = p
  /-- No two producers write the same cell. -/
  exclusive : ∀ p q, p ≠ q → ∀ pos pos', (s.producers p).writes? = some pos →
    (s.producers q).writes? = some pos' → cfg.index pos ≠ cfg.index pos'
  /-- No producer writes a cell that was published and not popped. -/
  undisturbed : ∀ p v pos, s.producers p = .writing v pos → ∀ b ∈ published s.trace,
    (popped s.trace).length ≤ b.ticket → cfg.index pos ≠ b.ticket % cfg.cap
  /-- A published cell holds its element until the consumer takes it out. -/
  stored : ∀ b ∈ published s.trace, (popped s.trace).length + s.consumer.vacated ≤ b.ticket →
    s.data (b.ticket % cfg.cap) = b.elem

namespace Inv

/-- A producer past the loop holds its ticket, and the ticket is in the window. -/
theorem writes_ok (h : Inv cfg s) {p : P} {pos : BitVec w}
    (hp : (s.producers p).writes? = some pos) :
    (s.producers p).ticket? = some pos ∧ TicketOk s p pos ∧
      pos.toNat < (popped s.trace).length + cfg.cap := by
  have hproducer := h.producers p
  cases hpc : s.producers p with
  | idle =>
    rw [hpc] at hp
    cases hp
  | spinning v pos' more =>
    rw [hpc] at hp
    cases hp
  | writing v pos' =>
    rw [hpc] at hp hproducer
    cases hp
    exact ⟨rfl, hproducer.1, hproducer.2⟩
  | publishing v pos' =>
    rw [hpc] at hp hproducer
    cases hp
    exact ⟨rfl, hproducer.1, hproducer.2.1⟩

/-- The first `n` pops are those of the pushes with the tickets below `n`. -/
theorem exists_sources (h : Inv cfg s) (n : ℕ) (hn : n ≤ (popped s.trace).length) :
    ∃ bs : List (Publication P V), bs.map (·.elem) = (popped s.trace).take n ∧
      bs.map (·.ticket) = List.range n ∧ ∀ b ∈ bs, b ∈ published s.trace := by
  induction n with
  | zero => exact ⟨[], rfl, rfl, fun b hb => absurd hb List.not_mem_nil⟩
  | succ n ih =>
    obtain ⟨bs, helems, htickets, hmem⟩ := ih (by omega)
    have hget : (popped s.trace)[n]? = some (popped s.trace)[n] := List.getElem?_eq_getElem (by omega)
    obtain ⟨b, hb, hticket, helem⟩ := h.popped_eq n _ hget
    refine ⟨bs ++ [b], ?_, ?_, ?_⟩
    · rw [List.map_append, helems, List.map_singleton, helem, List.take_add_one, hget]
      rfl
    · rw [List.map_append, htickets, List.map_singleton, hticket, List.range_succ]
    · intro c hc
      rcases List.mem_append.mp hc with hc | hc
      · exact hmem c hc
      · obtain rfl := List.mem_singleton.mp hc
        exact hb

end Inv

/-- In a list in ticket order the pushes with small tickets come first. -/
theorem filter_ticket_prefix {bs : List (Publication P V)} (n : ℕ)
    (hbs : bs.Pairwise fun b c => b.ticket < c.ticket) :
    (bs.filter fun b => b.ticket < n) <+: bs := by
  induction bs with
  | nil => exact List.prefix_refl _
  | cons b bs ih =>
    obtain ⟨hfirst, hrest⟩ := List.pairwise_cons.mp hbs
    by_cases hb : b.ticket < n
    · rw [List.filter_cons_of_pos (by simpa using hb), List.prefix_cons_inj]
      exact ih hrest
    · have hnone : (b :: bs).filter (fun c => c.ticket < n) = [] := by
        apply List.filter_eq_nil_iff.mpr
        intro c hc
        rcases List.mem_cons.mp hc with rfl | hc
        · simpa using hb
        · have hlt := hfirst c hc
          simp only [decide_eq_true_eq]
          omega
      rw [hnone]
      exact List.nil_prefix

/-- Popped pushes of one producer are its first ones. -/
theorem Inv.own_prefix [DecidableEq P] (h : Inv cfg s) {bs : List (Publication P V)} {n : ℕ}
    (htickets : bs.map (·.ticket) = List.range n) (hmem : ∀ b ∈ bs, b ∈ published s.trace) (p : P) :
    (bs.filter fun b => b.producer = p) <+:
      (published s.trace).filter fun b => b.producer = p := by
  have hown : ((published s.trace).filter fun b => b.producer = p).Pairwise
      fun b c => b.ticket < c.ticket := by
    refine (h.own_order.filter _).imp_of_mem ?_
    intro b c hb hc hlt
    have hbp : b.producer = p := by simpa using (List.mem_filter.mp hb).2
    have hcp : c.producer = p := by simpa using (List.mem_filter.mp hc).2
    exact hlt (hbp.trans hcp.symm)
  have hbs : bs.Pairwise fun b c => b.ticket < c.ticket := by
    rw [← List.pairwise_map, htickets]
    exact List.pairwise_lt_range
  have hsmall : (bs.filter fun b => b.producer = p) =
      ((published s.trace).filter fun b => b.producer = p).filter fun b => b.ticket < n := by
    have : Std.Irrefl fun b c : Publication P V => b.ticket < c.ticket := ⟨fun b => lt_irrefl _⟩
    have : Std.Antisymm fun b c : Publication P V => b.ticket < c.ticket :=
      ⟨fun b c hbc hcb => absurd hcb hbc.not_gt⟩
    apply (hbs.filter _).eq_of_mem_iff (hown.filter _)
    intro b
    simp only [List.mem_filter, decide_eq_true_eq]
    constructor
    · rintro ⟨hb, hbp⟩
      have hticket : b.ticket ∈ List.range n := htickets ▸ List.mem_map_of_mem hb
      exact ⟨⟨hmem b hb, hbp⟩, List.mem_range.mp hticket⟩
    · rintro ⟨⟨hb, hbp⟩, hlt⟩
      have hticket : b.ticket ∈ bs.map (·.ticket) := by
        rw [htickets]
        exact List.mem_range.mpr hlt
      obtain ⟨c, hc, hcb⟩ := List.mem_map.mp hticket
      obtain rfl : c = b := h.eq_of_ticket (hmem c hc) hb hcb
      exact ⟨hc, hbp⟩
  rw [hsmall]
  exact filter_ticket_prefix n hown

/-- The invariant gives delivery safety. -/
theorem Inv.deliverySafe [DecidableEq P] (h : Inv cfg s) : DeliverySafe cfg s where
  own_ticket := h.tickets_nodup
  sources := by
    obtain ⟨bs, helems, htickets, hmem⟩ := h.exists_sources _ le_rfl
    rw [List.take_length] at helems
    exact ⟨bs, helems, htickets, hmem, h.own_prefix htickets hmem⟩
  exclusive := by
    intro p q hpq pos pos' hp hq
    obtain ⟨hheld, hticket, hwindow⟩ := h.writes_ok hp
    obtain ⟨hheld', hticket', hwindow'⟩ := h.writes_ok hq
    have hne : pos.toNat ≠ pos'.toNat := by
      intro heq
      obtain rfl : pos = pos' := BitVec.eq_of_toNat_eq heq
      exact hpq (h.apart p q pos hheld hheld')
    rw [cfg.index_eq, cfg.index_eq]
    exact Inv.cell_ne hne (h.popped_le_of_fresh hticket.fresh) hwindow
      (h.popped_le_of_fresh hticket'.fresh) hwindow'
  undisturbed := by
    intro p v pos hp b hb hle
    obtain ⟨-, hticket, hwindow⟩ := h.writes_ok (p := p) (by rw [hp]; rfl)
    rw [cfg.index_eq]
    exact Inv.cell_ne (hticket.fresh b hb).symm (h.popped_le_of_fresh hticket.fresh) hwindow hle
      (h.window b hb)
  stored := h.stored

/-- **Delivery is safe.** For every capacity that `init` accepts, every number of producers and every
interleaving that draws fewer tickets than the counter's range, whether producers give up or not:
every pop returns what exactly one push that returned ok has pushed, no element twice and all in
ticket order, no two producers write one cell, and no cell is overwritten between its publication
and its pop. -/
theorem delivery_safe [DecidableEq P] (cfg : Config w) (destroy : V → V) {memory : ℕ → V}
    {labels : List (Label P V)}
    (hrun : Transition.run (step cfg destroy) (initial w P memory) labels = some s)
    (hrange : drawn s.trace < 2 ^ w) : DeliverySafe cfg s :=
  (inv_of_run hrun hrange).deliverySafe

/-- Producer 1 publishes before producer 0, which drew the first ticket; the third push gives up. -/
theorem delivery_safe_two :
    ∃ s, Transition.run (step twoCells id) (initial 64 ℕ fun _ => 0)
        [.push 0 (some 10) 5, .push 1 (some 11) 5, .producer 1, .producer 1, .producer 1,
          .push 2 (some 12) 1, .producer 2, .producer 0, .producer 0, .producer 0,
          .pop true 5, .consumer, .consumer, .consumer, .consumer] = some s ∧
      popped s.trace = [10] ∧ DeliverySafe twoCells s := by
  obtain ⟨s, hrun, hhistory⟩ := Transition.exists_run_eq (step twoCells id)
    (initial 64 ℕ fun _ => 0)
    [.push 0 (some 10) 5, .push 1 (some 11) 5, .producer 1, .producer 1, .producer 1,
      .push 2 (some 12) 1, .producer 2, .producer 0, .producer 0, .producer 0,
      .pop true 5, .consumer, .consumer, .consumer, .consumer]
    (fun s => (popped s.trace, drawn s.trace)) (b := ([10], 3)) (by decide)
  obtain ⟨hpopped, hdrawn⟩ := Prod.mk.inj hhistory
  exact ⟨s, hrun, hpopped, delivery_safe twoCells id hrun (by omega)⟩

end MpscQueue

end Memkit

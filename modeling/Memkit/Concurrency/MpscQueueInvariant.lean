import Memkit.Concurrency.MpscQueue

/-! # The invariant of the MPSC queue

Let `D` elements have been popped. `Inv` ties the sequence numbers to the history: the published
tickets lie below `D + capacity`, every ticket below `D` is published, and for the tickets `t` of
the window from `D` to `D + capacity` the cell of `t` carries `t + 1` if `t` is published and `t` if
it is not, whether `t` is still held by a producer, was given up or is yet to be drawn. No two
producers hold the same ticket and no held ticket is published.

One lemma for each kind of step shows that it keeps the invariant, as long as the counter of drawn
tickets has not wrapped. -/

namespace Memkit

namespace MpscQueue

variable {w : ℕ} {P V : Type*} {cfg : Config w} {destroy : V → V} {s s' t : State w P V} {p q : P}
  {v : V} {pos : BitVec w}

/-- The ticket of a push in progress. -/
def ProducerPc.ticket? : ProducerPc w V → Option (BitVec w)
  | .idle => none
  | .spinning _ pos _ => some pos
  | .writing _ pos => some pos
  | .publishing _ pos => some pos

/-- How many elements past `dequeue_pos_` the consumer has already taken out of their cell. -/
def ConsumerPc.vacated : ConsumerPc w V → ℕ
  | .releasing _ _ => 1
  | _ => 0

/-- A ticket that producer `p` holds: drawn, not published, and after all that `p` published. -/
structure TicketOk (s : State w P V) (p : P) (pos : BitVec w) : Prop where
  lt : pos.toNat < drawn s.trace
  fresh : ∀ b ∈ published s.trace, b.ticket ≠ pos.toNat
  later : ∀ b ∈ published s.trace, b.producer = p → b.ticket < pos.toNat

/-- What a producer knows: past the loop its ticket is in the window. -/
def ProducerOk (cfg : Config w) (s : State w P V) (p : P) : ProducerPc w V → Prop
  | .idle => True
  | .spinning _ pos _ => TicketOk s p pos
  | .writing _ pos => TicketOk s p pos ∧ pos.toNat < (popped s.trace).length + cfg.cap
  | .publishing v pos =>
    TicketOk s p pos ∧ pos.toNat < (popped s.trace).length + cfg.cap ∧ s.data (cfg.index pos) = v

/-- What the consumer knows: past the loop the ticket of `dequeue_pos_` is published. -/
def ConsumerOk (s : State w P V) : ConsumerPc w V → Prop
  | .idle => True
  | .spinning _ pos _ => pos = BitVec.ofNat w (popped s.trace).length
  | .checkEmpty _ pos _ => pos = BitVec.ofNat w (popped s.trace).length
  | .reading pos =>
    pos = BitVec.ofNat w (popped s.trace).length ∧
      ∃ b ∈ published s.trace, b.ticket = (popped s.trace).length
  | .destroying pos out =>
    pos = BitVec.ofNat w (popped s.trace).length ∧
      ∃ b ∈ published s.trace, b.ticket = (popped s.trace).length ∧ ∀ v ∈ out, b.elem = v
  | .releasing pos v =>
    pos = BitVec.ofNat w (popped s.trace).length ∧
      ∃ b ∈ published s.trace, b.ticket = (popped s.trace).length ∧ b.elem = v

/-- **The invariant.** -/
structure Inv (cfg : Config w) (s : State w P V) : Prop where
  enqueue_eq : s.enqueuePos = BitVec.ofNat w (drawn s.trace)
  dequeue_eq : s.dequeuePos = BitVec.ofNat w (popped s.trace).length
  tickets_nodup : ((published s.trace).map (·.ticket)).Nodup
  drawn_lt : ∀ b ∈ published s.trace, b.ticket < drawn s.trace
  window : ∀ b ∈ published s.trace, b.ticket < (popped s.trace).length + cfg.cap
  popped_eq : ∀ k v, (popped s.trace)[k]? = some v →
    ∃ b ∈ published s.trace, b.ticket = k ∧ b.elem = v
  own_order : (published s.trace).Pairwise fun b c => b.producer = c.producer → b.ticket < c.ticket
  cell_published : ∀ b ∈ published s.trace, (popped s.trace).length ≤ b.ticket →
    s.seq (b.ticket % cfg.cap) = BitVec.ofNat w (b.ticket + 1)
  cell_free : ∀ t, (popped s.trace).length ≤ t → t < (popped s.trace).length + cfg.cap →
    (∀ b ∈ published s.trace, b.ticket ≠ t) → s.seq (t % cfg.cap) = BitVec.ofNat w t
  stored : ∀ b ∈ published s.trace, (popped s.trace).length + s.consumer.vacated ≤ b.ticket →
    s.data (b.ticket % cfg.cap) = b.elem
  producers : ∀ p, ProducerOk cfg s p (s.producers p)
  apart : ∀ p q pos, (s.producers p).ticket? = some pos → (s.producers q).ticket? = some pos → p = q
  consumer : ConsumerOk s s.consumer

theorem inv_initial (cfg : Config w) (memory : ℕ → V) : Inv cfg (initial w P memory) where
  enqueue_eq := rfl
  dequeue_eq := rfl
  tickets_nodup := List.nodup_nil
  drawn_lt _ hb := absurd hb List.not_mem_nil
  window _ hb := absurd hb List.not_mem_nil
  popped_eq _ _ hv := nomatch hv
  own_order := List.Pairwise.nil
  cell_published _ hb := absurd hb List.not_mem_nil
  cell_free := by
    intro t _ ht _
    have hlt : t < cfg.cap := by simpa [initial, popped] using ht
    rw [Nat.mod_eq_of_lt hlt]
    rfl
  stored _ hb := absurd hb List.not_mem_nil
  producers _ := trivial
  apart _ _ _ hp := nomatch hp
  consumer := trivial

/-! ## Consequences -/

namespace Inv

/-- Every ticket below the number of pops is published. -/
theorem published_of_lt (h : Inv cfg s) {k : ℕ} (hk : k < (popped s.trace).length) :
    ∃ b ∈ published s.trace, b.ticket = k := by
  obtain ⟨b, hb, hticket, -⟩ := h.popped_eq k _ (List.getElem?_eq_getElem hk)
  exact ⟨b, hb, hticket⟩

/-- The tickets that `pop` has consumed were drawn. -/
theorem popped_le_drawn (h : Inv cfg s) : (popped s.trace).length ≤ drawn s.trace := by
  by_contra hlt
  obtain ⟨b, hb, hticket⟩ := h.published_of_lt (k := drawn s.trace) (by omega)
  exact (h.drawn_lt b hb).ne hticket

/-- A push is determined by its ticket. -/
theorem eq_of_ticket (h : Inv cfg s) {b c : Publication P V} (hb : b ∈ published s.trace)
    (hc : c ∈ published s.trace) (hbc : b.ticket = c.ticket) : b = c :=
  List.inj_on_of_nodup_map h.tickets_nodup hb hc hbc

/-- A ticket that is not published has not been popped. -/
theorem popped_le_of_fresh (h : Inv cfg s) {k : ℕ} (hfresh : ∀ b ∈ published s.trace, b.ticket ≠ k) :
    (popped s.trace).length ≤ k := by
  by_contra hlt
  obtain ⟨b, hb, hticket⟩ := h.published_of_lt (k := k) (by omega)
  exact hfresh b hb hticket

/-- Two different tickets of the window have different cells. -/
theorem cell_ne {D i j : ℕ} (hij : i ≠ j) (hi : D ≤ i) (hi' : i < D + cfg.cap) (hj : D ≤ j)
    (hj' : j < D + cfg.cap) : i % cfg.cap ≠ j % cfg.cap := by
  rcases Nat.lt_or_gt_of_ne hij with hlt | hlt
  · exact cfg.slot_ne hlt (by omega)
  · exact (cfg.slot_ne hlt (by omega)).symm

/-- **The loop of `push` is exact**: a held ticket that equals its cell's sequence number is in the
window. -/
theorem in_window (h : Inv cfg s) (hrange : drawn s.trace < 2 ^ w) (hpos : TicketOk s p pos)
    (hseq : s.seq (cfg.index pos) = pos) : pos.toNat < (popped s.trace).length + cfg.cap := by
  have hcap := cfg.cap_ge
  have hlt := hpos.lt
  have hD := h.popped_le_of_fresh hpos.fresh
  by_contra hbeyond
  -- the ticket of the window that uses the same cell
  obtain ⟨d, hd⟩ := Nat.exists_eq_add_of_le hD
  have hd' : cfg.cap ≤ d := by omega
  have hmod := Nat.mod_lt d (show 0 < cfg.cap by omega)
  have hle : (popped s.trace).length + d % cfg.cap + cfg.cap ≤ pos.toNat := by
    have hdiv := Nat.div_add_mod d cfg.cap
    have hquot : 1 ≤ d / cfg.cap := (Nat.one_le_div_iff (by omega)).mpr hd'
    have hmul : cfg.cap * 1 ≤ cfg.cap * (d / cfg.cap) := Nat.mul_le_mul_left _ hquot
    omega
  have hcell : ((popped s.trace).length + d % cfg.cap) % cfg.cap = pos.toNat % cfg.cap := by
    rw [hd, Nat.add_mod, Nat.mod_mod, ← Nat.add_mod]
  have hword : pos = BitVec.ofNat w pos.toNat := by simp
  rw [cfg.index_eq, ← hcell] at hseq
  by_cases hpub : ∃ b ∈ published s.trace, b.ticket = (popped s.trace).length + d % cfg.cap
  · obtain ⟨b, hb, hticket⟩ := hpub
    have hcellb := h.cell_published b hb (by omega)
    rw [hticket, hseq, hword] at hcellb
    have heq := (WrapCounter.ofNat_inj (by omega) (by omega)).mp hcellb
    omega
  · push Not at hpub
    have hfree := h.cell_free _ (Nat.le_add_right _ _) (by omega) hpub
    rw [hseq, hword] at hfree
    have heq := (WrapCounter.ofNat_inj (by omega) (by omega)).mp hfree
    omega

/-- **The loop of `pop` is exact**: the cell of `dequeue_pos_` carries the next number only if the
ticket is published. -/
theorem published_of_seq (h : Inv cfg s)
    (hseq : s.seq ((popped s.trace).length % cfg.cap) =
      BitVec.ofNat w ((popped s.trace).length + 1)) :
    ∃ b ∈ published s.trace, b.ticket = (popped s.trace).length := by
  have hcap := cfg.cap_ge
  by_contra hpub
  push Not at hpub
  have hfree := h.cell_free _ le_rfl (by omega) hpub
  rw [hseq] at hfree
  exact cfg.ofNat_ne (Nat.lt_succ_self _) (by omega) hfree.symm

end Inv

/-! ## Changes of one thread's position, and silent events -/

/-- What a producer knows stays true while others go on: new publications are of other producers'
tickets, and the cell it has written is left alone. -/
theorem ProducerOk.mono {pc : ProducerPc w V} (h : ProducerOk cfg s p pc)
    (hdrawn : drawn s.trace ≤ drawn s'.trace)
    (hpub : ∀ b ∈ published s'.trace, b ∈ published s.trace ∨
      b.producer ≠ p ∧ ∀ pos, pc.ticket? = some pos → b.ticket ≠ pos.toNat)
    (hpop : (popped s.trace).length ≤ (popped s'.trace).length)
    (hdata : ∀ v pos, pc = .publishing v pos → s'.data (cfg.index pos) = s.data (cfg.index pos)) :
    ProducerOk cfg s' p pc := by
  have hticket : ∀ pos, pc.ticket? = some pos → TicketOk s p pos → TicketOk s' p pos := by
    rintro pos hpos ⟨hlt, hfresh, hlater⟩
    refine ⟨hlt.trans_le hdrawn, fun b hb => ?_, fun b hb hbp => ?_⟩
    · rcases hpub b hb with hb | ⟨-, hne⟩
      · exact hfresh b hb
      · exact hne pos hpos
    · rcases hpub b hb with hb | ⟨hne, -⟩
      · exact hlater b hb hbp
      · exact absurd hbp hne
  cases pc with
  | idle => trivial
  | spinning v pos more => exact hticket pos rfl h
  | writing v pos =>
    have hwindow := h.2
    exact ⟨hticket pos rfl h.1, by omega⟩
  | publishing v pos =>
    have hwindow := h.2.1
    exact ⟨hticket pos rfl h.1, by omega, (hdata v pos rfl).trans h.2.2⟩

/-- What the consumer knows stays true while producers go on. -/
theorem ConsumerOk.mono {pc : ConsumerPc w V} (h : ConsumerOk s pc)
    (hpub : ∀ b ∈ published s.trace, b ∈ published s'.trace)
    (hpop : popped s'.trace = popped s.trace) : ConsumerOk s' pc := by
  cases pc with
  | idle => trivial
  | spinning hasOut pos more => exact h.trans (by rw [hpop])
  | checkEmpty hasOut pos more => exact h.trans (by rw [hpop])
  | reading pos =>
    obtain ⟨hpos, b, hb, hticket⟩ := h
    exact ⟨by rw [hpop, hpos], b, hpub b hb, by rw [hpop, hticket]⟩
  | destroying pos out =>
    obtain ⟨hpos, b, hb, hticket, hout⟩ := h
    exact ⟨by rw [hpop, hpos], b, hpub b hb, by rw [hpop, hticket], hout⟩
  | releasing pos v =>
    obtain ⟨hpos, b, hb, hticket, helem⟩ := h
    exact ⟨by rw [hpop, hpos], b, hpub b hb, by rw [hpop, hticket], helem⟩

/-- A ticket that a producer holds is fit to be held. -/
theorem ProducerOk.ticketOk {pc : ProducerPc w V} (h : ProducerOk cfg s p pc)
    (hpos : pc.ticket? = some pos) : TicketOk s p pos := by
  cases pc with
  | idle => cases hpos
  | spinning v pos' more =>
    cases hpos
    exact h
  | writing v pos' =>
    cases hpos
    exact h.1
  | publishing v pos' =>
    cases hpos
    exact h.1

namespace Inv

/-- Events that neither draw, publish nor pop leave the invariant alone. -/
theorem log (h : Inv cfg s) {e : Event w P V} (hpub : Event.published? e = none)
    (hpop : Event.popped? e = none) (hdraw : e.isDraw = false) : Inv cfg (s.log e) := by
  have hpublished : published (s.trace ++ [e]) = published s.trace := by simp [hpub]
  have hpopped : popped (s.trace ++ [e]) = popped s.trace := by simp [hpop]
  have hdrawn : drawn (s.trace ++ [e]) = drawn s.trace := by simp [hdraw]
  obtain ⟨h1, h2, h3, h4, h5, h6, h7, h8, h9, h10, h11, h12, h13⟩ := h
  refine ⟨?_, ?_, ?_, ?_, ?_, ?_, ?_, ?_, ?_, ?_, ?_, h12, ?_⟩
  all_goals simp only [State.log, hpublished, hpopped, hdrawn]
  · exact h1
  · exact h2
  · exact h3
  · exact h4
  · exact h5
  · exact h6
  · exact h7
  · exact h8
  · exact h9
  · exact h10
  · intro p
    exact (h11 p).mono hdrawn.ge (fun b hb => .inl (hpublished ▸ hb)) (by rw [hpopped])
      fun _ _ _ => rfl
  · exact h13.mono (fun b hb => hpublished.symm ▸ hb) hpopped

/-- A producer moves on to a position it knows enough for, with a ticket that nobody else holds. -/
theorem setProducer [DecidableEq P] (h : Inv cfg s) {pc : ProducerPc w V}
    (hpc : ProducerOk cfg s p pc)
    (hapart : ∀ pos q, q ≠ p → pc.ticket? = some pos → (s.producers q).ticket? ≠ some pos) :
    Inv cfg (s.setProducer p pc) := by
  refine { h with producers := ?_, apart := ?_ }
  · intro q
    have hsame : ∀ pc', ProducerOk cfg s q pc' → ProducerOk cfg (s.setProducer p pc) q pc' :=
      fun pc' hok => hok.mono le_rfl (fun b hb => .inl hb) le_rfl fun _ _ _ => rfl
    apply hsame
    show ProducerOk cfg s q (Function.update s.producers p pc q)
    by_cases hq : q = p
    · subst hq
      rw [Function.update_self]
      exact hpc
    · rw [Function.update_of_ne hq]
      exact h.producers q
  · intro q r pos hq hr
    simp only [State.setProducer] at hq hr
    by_cases hqp : q = p
    · by_cases hrp : r = p
      · exact hqp.trans hrp.symm
      · subst hqp
        rw [Function.update_self] at hq
        rw [Function.update_of_ne hrp] at hr
        exact absurd hr (hapart pos r hrp hq)
    · rw [Function.update_of_ne hqp] at hq
      by_cases hrp : r = p
      · subst hrp
        rw [Function.update_self] at hr
        exact absurd hq (hapart pos q hqp hr)
      · rw [Function.update_of_ne hrp] at hr
        exact h.apart q r pos hq hr

/-- The ticket that a producer holds is held by nobody else. -/
theorem not_held (h : Inv cfg s) (hp : (s.producers p).ticket? = some pos) (hqp : q ≠ p) :
    (s.producers q).ticket? ≠ some pos :=
  fun hq => hqp (h.apart q p pos hq hp)

/-- The consumer moves on to a position it knows enough for. -/
theorem setConsumer (h : Inv cfg s) {pc : ConsumerPc w V} (hpc : ConsumerOk s pc)
    (hvacated : s.consumer.vacated ≤ pc.vacated) : Inv cfg { s with consumer := pc } := by
  refine { h with stored := ?_, producers := ?_, consumer := hpc }
  · intro b hb hle
    have hle' : (popped s.trace).length + pc.vacated ≤ b.ticket := hle
    exact h.stored b hb (by omega)
  · exact fun q => (h.producers q).mono le_rfl (fun b hb => .inl hb) le_rfl fun _ _ _ => rfl

/-! ## The steps that touch the shared state -/

/-- `fetch_add`: the next ticket is drawn. -/
theorem draw (h : Inv cfg s) (p : P) :
    Inv cfg ({ s with enqueuePos := s.enqueuePos + 1 }.log (.draw p s.enqueuePos)) := by
  have hpublished : published (s.trace ++ [.draw p s.enqueuePos]) = published s.trace := by
    simp [Event.published?]
  have hpopped : popped (s.trace ++ [.draw p s.enqueuePos]) = popped s.trace := by
    simp [Event.popped?]
  have hdrawn : drawn (s.trace ++ [.draw p s.enqueuePos]) = drawn s.trace + 1 := by
    simp [Event.isDraw]
  refine ⟨?_, ?_, ?_, ?_, ?_, ?_, ?_, ?_, ?_, ?_, ?_, h.apart, ?_⟩
  all_goals simp only [State.log, hpublished, hpopped, hdrawn]
  · rw [h.enqueue_eq, WrapCounter.ofNat_succ]
  · exact h.dequeue_eq
  · exact h.tickets_nodup
  · intro b hb
    have hlt := h.drawn_lt b hb
    omega
  · exact h.window
  · exact h.popped_eq
  · exact h.own_order
  · exact h.cell_published
  · exact h.cell_free
  · exact h.stored
  · intro q
    exact (h.producers q).mono (by rw [hdrawn]; omega) (fun b hb => .inl (hpublished ▸ hb))
      (by rw [hpopped]) fun _ _ _ => rfl
  · exact h.consumer.mono (fun b hb => hpublished.symm ▸ hb) hpopped

/-- The ticket just drawn is fit to be held, and nobody else holds it. -/
theorem drawn_ok (h : Inv cfg s) (hrange : drawn s.trace + 1 < 2 ^ w) (p : P) :
    TicketOk ({ s with enqueuePos := s.enqueuePos + 1 }.log (.draw p s.enqueuePos)) p
        s.enqueuePos ∧
      ∀ q, (s.producers q).ticket? ≠ some s.enqueuePos := by
  have hword : s.enqueuePos.toNat = drawn s.trace := by
    rw [h.enqueue_eq, BitVec.toNat_ofNat, Nat.mod_eq_of_lt (by omega)]
  have hpublished : published (s.trace ++ [.draw p s.enqueuePos]) = published s.trace := by
    simp [Event.published?]
  have hdrawn : drawn (s.trace ++ [.draw p s.enqueuePos]) = drawn s.trace + 1 := by
    simp [Event.isDraw]
  refine ⟨⟨?_, ?_, ?_⟩, ?_⟩
  · simp only [State.log, hdrawn, hword]
    omega
  · simp only [State.log, hpublished, hword]
    exact fun b hb => (h.drawn_lt b hb).ne
  · simp only [State.log, hpublished, hword]
    exact fun b hb _ => h.drawn_lt b hb
  · intro q hq
    have hlt := ((h.producers q).ticketOk hq).lt
    omega

/-- `copy_construct` into a free cell. -/
theorem write (h : Inv cfg s) (hp : s.producers p = .writing v pos) :
    Inv cfg { s with data := Function.update s.data (cfg.index pos) v } := by
  have hok : TicketOk s p pos ∧ pos.toNat < (popped s.trace).length + cfg.cap := by
    have hproducer := h.producers p
    rwa [hp] at hproducer
  have hD := h.popped_le_of_fresh hok.1.fresh
  refine { h with stored := ?_, producers := ?_ }
  · intro b hb hle
    have hle' : (popped s.trace).length + s.consumer.vacated ≤ b.ticket := hle
    show Function.update s.data (cfg.index pos) v (b.ticket % cfg.cap) = b.elem
    rw [cfg.index_eq, Function.update_of_ne]
    · exact h.stored b hb hle
    · exact cell_ne (hok.1.fresh b hb) (by omega) (h.window b hb) hD hok.2
  · intro q
    refine ProducerOk.mono (s := s) (h.producers q) le_rfl (fun b hb => .inl hb) le_rfl ?_
    intro v' pos' hq
    have hproducer := h.producers q
    rw [hq] at hproducer
    have hne : pos'.toNat ≠ pos.toNat := by
      intro heq
      obtain rfl : pos' = pos := BitVec.eq_of_toNat_eq heq
      have hqp : q = p := h.apart q p pos' (by rw [hq]; rfl) (by rw [hp]; rfl)
      subst hqp
      rw [hp] at hq
      cases hq
    apply Function.update_of_ne
    rw [cfg.index_eq, cfg.index_eq]
    exact cell_ne hne (h.popped_le_of_fresh hproducer.1.fresh) hproducer.2.1 hD hok.2

/-- `seq.store(pos + 1)`: a ticket that is no longer held, in the window, with its element in its
cell, is published. -/
theorem publish (h : Inv cfg s) (hpos : TicketOk s p pos)
    (hwindow : pos.toNat < (popped s.trace).length + cfg.cap) (hdata : s.data (cfg.index pos) = v)
    (hheld : ∀ q pos', (s.producers q).ticket? = some pos' → q ≠ p ∧ pos' ≠ pos) :
    Inv cfg ({ s with seq := Function.update s.seq (cfg.index pos) (pos + 1) }.log
      (.push p pos v .ok)) := by
  have hpublished : published (s.trace ++ [.push p pos v .ok]) =
      published s.trace ++ [⟨p, pos.toNat, v⟩] := by
    simp [Event.published?]
  have hpopped : popped (s.trace ++ [.push p pos v .ok]) = popped s.trace := by
    simp [Event.popped?]
  have hdrawn : drawn (s.trace ++ [.push p pos v .ok]) = drawn s.trace := by
    simp [Event.isDraw]
  -- the ticket is in the window, so that no other ticket there has the same cell
  have hD := h.popped_le_of_fresh hpos.fresh
  have hmem : ∀ b, b ∈ published s.trace ++ [⟨p, pos.toNat, v⟩] ↔
      b ∈ published s.trace ∨ b = ⟨p, pos.toNat, v⟩ := by
    intro b
    rw [List.mem_append, List.mem_singleton]
  refine ⟨?_, ?_, ?_, ?_, ?_, ?_, ?_, ?_, ?_, ?_, ?_, h.apart, ?_⟩
  all_goals simp only [State.log, hpublished, hpopped, hdrawn, hmem]
  · exact h.enqueue_eq
  · exact h.dequeue_eq
  · -- the ticket is drawn once, so that it is new among the published ones
    rw [List.map_append, List.map_singleton, ← List.concat_eq_append, List.nodup_concat]
    refine ⟨?_, h.tickets_nodup⟩
    intro hticket
    obtain ⟨b, hb, heq⟩ := List.mem_map.mp hticket
    exact hpos.fresh b hb heq
  · rintro b (hb | rfl)
    · exact h.drawn_lt b hb
    · exact hpos.lt
  · rintro b (hb | rfl)
    · exact h.window b hb
    · exact hwindow
  · intro k u hk
    obtain ⟨b, hb, hticket, helem⟩ := h.popped_eq k u hk
    exact ⟨b, .inl hb, hticket, helem⟩
  · -- a producer holds one ticket at a time, drawn after all it has published
    refine List.pairwise_append.mpr ⟨h.own_order, List.pairwise_singleton _ _, ?_⟩
    intro b hb c hc hbc
    obtain rfl := List.mem_singleton.mp hc
    exact hpos.later b hb hbc
  · -- `seq` of a published cell: the other tickets of the window have other cells
    rintro b (hb | rfl) hle
    · rw [cfg.index_eq, Function.update_of_ne]
      · exact h.cell_published b hb hle
      · exact cell_ne (hpos.fresh b hb) hle (h.window b hb) hD hwindow
    · rw [cfg.index_eq, Function.update_self, ← WrapCounter.ofNat_succ]
      simp
  · -- `seq` of a free cell
    intro k hk hk' hfresh
    have hne : pos.toNat ≠ k := hfresh _ (.inr rfl)
    rw [cfg.index_eq, Function.update_of_ne (cell_ne hne.symm hk hk' hD hwindow)]
    exact h.cell_free k hk hk' fun b hb => hfresh b (.inl hb)
  · -- the contents were stored before `seq`
    rintro b (hb | rfl) hle
    · exact h.stored b hb hle
    · rw [← cfg.index_eq]
      exact hdata
  · -- the other producers hold other tickets
    intro q
    cases hq : (s.producers q).ticket? with
    | none =>
      have hidle : s.producers q = .idle := by
        cases hpc : s.producers q with
        | idle => rfl
        | _ => simp [hpc, ProducerPc.ticket?] at hq
      rw [hidle]
      trivial
    | some pos' =>
      obtain ⟨hqp, hne⟩ := hheld q pos' hq
      refine ProducerOk.mono (s := s) (h.producers q) hdrawn.ge (fun b hb => ?_) (by rw [hpopped])
        fun _ _ _ => rfl
      rw [hpublished, hmem] at hb
      rcases hb with hb | rfl
      · exact .inl hb
      · refine .inr ⟨hqp.symm, fun pos'' hpos'' heq => ?_⟩
        obtain rfl : pos' = pos'' := Option.some.inj (hq.symm.trans hpos'')
        exact hne (BitVec.eq_of_toNat_eq heq.symm)
  · exact h.consumer.mono (fun b hb => hpublished.symm ▸ List.mem_append_left _ hb) hpopped

/-- `destroy` of the element that is being popped. -/
theorem vacate (h : Inv cfg s) {out : Option V} (hc : s.consumer = .destroying pos out) (u : V) :
    Inv cfg { s with
      data := Function.update s.data (cfg.index pos) u
      consumer := .releasing pos (out.getD (s.data (cfg.index pos))) } := by
  have hconsumer := h.consumer
  have hvacated : s.consumer.vacated = 0 := by rw [hc]; rfl
  rw [hc] at hconsumer
  obtain ⟨rfl, b, hb, hticket, hout⟩ := hconsumer
  have hcap := cfg.cap_ge
  refine { h with stored := ?_, producers := ?_, consumer := ?_ }
  · -- the element is destroyed while the ticket is in the window: `vacated` leaves its cell out
    intro c hcmem hle
    have hle' : (popped s.trace).length + 1 ≤ c.ticket := hle
    show Function.update s.data _ u (c.ticket % cfg.cap) = c.elem
    rw [cfg.index_ofNat, Function.update_of_ne]
    · exact h.stored c hcmem (by omega)
    · exact cell_ne (D := (popped s.trace).length) (by omega) (by omega) (h.window c hcmem) le_rfl
        (by omega)
  · -- a producer that is about to publish has its element in another cell
    intro q
    refine ProducerOk.mono (s := s) (h.producers q) le_rfl (fun b hb => .inl hb) le_rfl ?_
    intro v' pos' hq
    have hproducer := h.producers q
    rw [hq] at hproducer
    have hne : pos'.toNat ≠ (popped s.trace).length := by
      rw [← hticket]
      exact (hproducer.1.fresh b hb).symm
    apply Function.update_of_ne
    rw [cfg.index_ofNat, cfg.index_eq]
    exact cell_ne hne (h.popped_le_of_fresh hproducer.1.fresh) hproducer.2.1 le_rfl (by omega)
  · refine ⟨rfl, b, hb, hticket, ?_⟩
    cases out with
    | some v => exact hout v rfl
    | none =>
      have hstored := h.stored b hb (by rw [hvacated, hticket, Nat.add_zero])
      rw [hticket] at hstored
      rw [cfg.index_ofNat]
      exact hstored.symm

/-- `seq.store(pos + capacity_)`: the cell is free for the next round, and the pop returns. -/
theorem release (h : Inv cfg s) (hc : s.consumer = .releasing pos v) :
    Inv cfg ({ s with
      seq := Function.update s.seq (cfg.index pos) (pos + cfg.capacity)
      dequeuePos := pos + 1
      consumer := .idle }.log (.pop (some v) .ok)) := by
  have hconsumer := h.consumer
  have hvacated : s.consumer.vacated = 1 := by rw [hc]; rfl
  rw [hc] at hconsumer
  -- the element in hand is the one of the next ticket
  obtain ⟨rfl, b, hb, hticket, helem⟩ := hconsumer
  have hcap := cfg.cap_ge
  have hpublished : published (s.trace ++ [.pop (some v) .ok]) = published s.trace := by
    simp [Event.published?]
  have hpopped : popped (s.trace ++ [.pop (some v) .ok]) = popped s.trace ++ [v] := by
    simp [Event.popped?]
  have hlength : (popped (s.trace ++ [.pop (some v) .ok])).length =
      (popped s.trace).length + 1 := by
    rw [hpopped, List.length_append, List.length_singleton]
  have hdrawn : drawn (s.trace ++ [.pop (some v) .ok]) = drawn s.trace := by
    simp [Event.isDraw]
  refine ⟨?_, ?_, ?_, ?_, ?_, ?_, ?_, ?_, ?_, ?_, ?_, h.apart, trivial⟩
  all_goals simp only [State.log, hpublished, hlength, hdrawn]
  · exact h.enqueue_eq
  · exact WrapCounter.ofNat_succ _
  · exact h.tickets_nodup
  · exact h.drawn_lt
  · intro c hcmem
    have hlt := h.window c hcmem
    omega
  · -- the elements taken so far are those of the tickets below, and now of one more
    intro k u hk
    rw [hpopped] at hk
    by_cases hlt : k < (popped s.trace).length
    · rw [List.getElem?_append_left hlt] at hk
      exact h.popped_eq k u hk
    · have hbound : k < (popped s.trace ++ [v]).length := (List.getElem?_eq_some_iff.mp hk).1
      rw [List.length_append, List.length_singleton] at hbound
      obtain rfl : k = (popped s.trace).length := by omega
      rw [List.getElem?_concat_length] at hk
      cases hk
      exact ⟨b, hb, hticket, helem⟩
  · exact h.own_order
  · intro c hcmem hle
    rw [cfg.index_ofNat, Function.update_of_ne]
    · exact h.cell_published c hcmem (by omega)
    · exact cell_ne (D := (popped s.trace).length) (by omega) (by omega) (h.window c hcmem) le_rfl
        (by omega)
  · -- the window moved by one: its last ticket has the cell just released, marked for it
    intro k hk hk' hfresh
    rw [cfg.index_ofNat]
    by_cases hlast : k = (popped s.trace).length + cfg.cap
    · subst hlast
      rw [Nat.add_mod_right, Function.update_self, BitVec.ofNat_add]
      congr 1
      show cfg.capacity = BitVec.ofNat w cfg.capacity.toNat
      simp
    · rw [Function.update_of_ne]
      · exact h.cell_free k (by omega) (by omega) hfresh
      · exact cell_ne (D := (popped s.trace).length) (by omega) (by omega) (by omega) le_rfl
          (by omega)
  · -- the cell that is released belongs to a ticket below the window
    intro c hcmem hle
    exact h.stored c hcmem (by rw [hvacated]; exact hle)
  · intro q
    exact (h.producers q).mono hdrawn.ge (fun b hb => .inl (hpublished ▸ hb))
      ((Nat.le_succ _).trans hlength.ge) fun _ _ _ => rfl

end Inv

/-! ## Every step -/

/-- The loop of `push` keeps the invariant. -/
theorem Inv.pushLoop [DecidableEq P] (h : Inv cfg s) (hpos : TicketOk s p pos)
    (hheld : ∀ q, q ≠ p → (s.producers q).ticket? ≠ some pos) (v : V) (rounds : ℕ) :
    Inv cfg (pushLoop s p v pos rounds) := by
  rcases pushLoop_cases s p v pos rounds with ⟨more, hloop⟩ | hloop
  · rw [hloop]
    refine h.setProducer hpos fun pos' q hqp hpos' => ?_
    obtain rfl : pos = pos' := Option.some.inj hpos'
    exact hheld q hqp
  · rw [hloop]
    have hidle : Inv cfg (s.setProducer p .idle) := h.setProducer trivial nofun
    exact hidle.log rfl rfl rfl

/-- The loop of `pop` keeps the invariant. -/
theorem Inv.popLoop (h : Inv cfg s) (hpos : pos = BitVec.ofNat w (popped s.trace).length)
    (hvacated : s.consumer.vacated = 0) (hasOut : Bool) (rounds : ℕ) :
    Inv cfg (popLoop s hasOut pos rounds) := by
  rcases popLoop_cases s hasOut pos rounds with ⟨more, hloop⟩ | hloop
  · rw [hloop]
    exact h.setConsumer hpos (by omega)
  · rw [hloop]
    have hidle : Inv cfg { s with consumer := .idle } := h.setConsumer trivial (by omega)
    exact hidle.log rfl rfl rfl

/-- A step inside `pop`. -/
theorem Inv.consumerStep (h : Inv cfg s) (hstep : consumerStep cfg destroy s = some t) :
    Inv cfg t := by
  have hconsumer := h.consumer
  cases consumerStepsTo hstep with
  | @ready hasOut pos more hc hseq =>
    rw [hc] at hconsumer
    have hvacated : s.consumer.vacated = 0 := by rw [hc]; rfl
    have hpos : pos = BitVec.ofNat w (popped s.trace).length := hconsumer
    rw [hpos, cfg.index_ofNat, WrapCounter.ofNat_succ] at hseq
    obtain ⟨b, hb, hticket⟩ := h.published_of_seq hseq
    cases hasOut with
    | true => exact h.setConsumer ⟨hpos, b, hb, hticket⟩ (by omega)
    | false => exact h.setConsumer ⟨hpos, b, hb, hticket, fun _ h => by cases h⟩ (by omega)
  | look hc hseq =>
    rw [hc] at hconsumer
    have hvacated : s.consumer.vacated = 0 := by rw [hc]; rfl
    exact h.setConsumer hconsumer (by omega)
  | @wait hasOut pos more hc =>
    -- both kinds of load keep the same facts
    rcases hc with hc | hc
    · rw [hc] at hconsumer
      exact h.popLoop hconsumer (by rw [hc]; rfl) hasOut more
    · rw [hc] at hconsumer
      exact h.popLoop hconsumer (by rw [hc]; rfl) hasOut more
  | empty hc hempty =>
    have hvacated : s.consumer.vacated = 0 := by rw [hc]; rfl
    have hidle : Inv cfg { s with consumer := .idle } := h.setConsumer trivial (by omega)
    exact hidle.log rfl rfl rfl
  | read hc =>
    rw [hc] at hconsumer
    have hvacated : s.consumer.vacated = 0 := by rw [hc]; rfl
    obtain ⟨rfl, b, hb, hticket⟩ := hconsumer
    refine h.setConsumer ⟨rfl, b, hb, hticket, ?_⟩ (by omega)
    intro v hv
    have hstored := h.stored b hb (by rw [hvacated, hticket, Nat.add_zero])
    rw [hticket] at hstored
    obtain rfl := Option.mem_some_iff.mp hv
    rw [cfg.index_ofNat]
    exact hstored.symm
  | vacate hc => exact h.vacate hc _
  | release hc => exact h.release hc

variable [DecidableEq P] {a : Label P V} {labels : List (Label P V)}

/-- Entering `push`. -/
theorem Inv.startPush (h : Inv cfg s) {elem : Option V} {maxSpins : ℕ}
    (hstep : startPush s p elem maxSpins = some t) (hrange : drawn t.trace < 2 ^ w) :
    Inv cfg t := by
  unfold MpscQueue.startPush at hstep
  split at hstep
  · cases hstep
    exact h.log rfl rfl rfl
  · rename_i v hidle
    cases hstep
    have hdrawn : drawn s.trace + 1 < 2 ^ w := by simpa [Event.isDraw] using hrange
    obtain ⟨hticket, hheld⟩ := h.drawn_ok hdrawn p
    exact (h.draw p).pushLoop hticket (fun q _ => hheld q) v maxSpins
  · cases hstep

/-- A step inside `push`. -/
theorem Inv.producerStep (h : Inv cfg s) (hrange : drawn s.trace < 2 ^ w)
    (hstep : producerStep cfg s p = some t) : Inv cfg t := by
  have hproducer := h.producers p
  cases producerStepsTo hstep with
  | @claim v pos more hp hseq =>
    rw [hp] at hproducer
    refine h.setProducer ⟨hproducer, h.in_window hrange hproducer hseq⟩ ?_
    intro pos' q hqp hpos'
    obtain rfl : pos = pos' := Option.some.inj hpos'
    exact h.not_held (by rw [hp]; rfl) hqp
  | @wait v pos more hp hseq =>
    rw [hp] at hproducer
    exact h.pushLoop hproducer (fun q hqp => h.not_held (by rw [hp]; rfl) hqp) v more
  | @write v pos hp =>
    rw [hp] at hproducer
    have hwritten := h.write hp
    refine hwritten.setProducer ⟨?_, hproducer.2, ?_⟩ ?_
    · exact ⟨hproducer.1.lt, hproducer.1.fresh, hproducer.1.later⟩
    · exact Function.update_self ..
    · intro pos' q hqp hpos'
      obtain rfl : pos = pos' := Option.some.inj hpos'
      exact h.not_held (by rw [hp]; rfl) hqp
  | @publish v pos hp =>
    rw [hp] at hproducer
    -- with `p` idle nobody holds the ticket any more
    have hidle : Inv cfg (s.setProducer p .idle) := h.setProducer trivial fun _ _ _ h => by cases h
    refine hidle.publish ⟨hproducer.1.lt, hproducer.1.fresh, hproducer.1.later⟩ hproducer.2.1
      hproducer.2.2 ?_
    intro q pos' hq
    by_cases hqp : q = p
    · subst hqp
      simp [ProducerPc.ticket?] at hq
    · refine ⟨hqp, ?_⟩
      rintro rfl
      simp only [State.setProducer, Function.update_of_ne hqp] at hq
      exact h.not_held (by rw [hp]; rfl) hqp hq

/-- **Every step** keeps the invariant while the counter has not wrapped. -/
theorem Inv.step (h : Inv cfg s) (hstep : step cfg destroy s a = some t)
    (hrange : drawn t.trace < 2 ^ w) : Inv cfg t := by
  have hdrawn := drawn_step hstep
  cases a with
  | push p elem maxSpins => exact h.startPush hstep hrange
  | producer p => exact h.producerStep (by omega) hstep
  | consumer => exact h.consumerStep hstep
  | pop hasOut maxSpins =>
    simp only [MpscQueue.step, MpscQueue.startPop] at hstep
    split at hstep
    · rename_i hc
      cases hstep
      exact h.popLoop h.dequeue_eq (by rw [hc]; rfl) hasOut maxSpins
    · cases hstep

/-- **Every run** that draws fewer tickets than the counter's range keeps the invariant. -/
theorem inv_of_run {memory : ℕ → V}
    (hrun : Transition.run (MpscQueue.step cfg destroy) (initial w P memory) labels = some s)
    (hrange : drawn s.trace < 2 ^ w) : Inv cfg s := by
  refine Transition.run_invariant (fun s => drawn s.trace < 2 ^ w → Inv cfg s) ?_
    (fun _ => inv_initial cfg memory) hrun hrange
  intro s a t h hstep hrange
  have hdrawn := drawn_step hstep
  exact (h (by omega)).step hstep hrange

end MpscQueue

end Memkit

import HPQueue.Consumer.WakeUp

/-!
# What became of the entries

The numbers of the entries that were passed to `Consumer::handle`, beside those the
queue has given away: a worker passes what it was given before it asks again, so that
the two differ by what workers have in hand.

## Main results

* `Tended.turn` — what one step preserves, and how far it takes the tickets.
* `Tended.handledOnce` — where every worker has passed a number and waits, the number was
  handled once.
-/

namespace HPQueue

open Library.Threads Prog

variable {ι : Type} {n : Nat} {E : Type}

theorem getElem?_of_prefix {α : Type} {xs ys : List α} (h : xs <+: ys) {k : Nat} {x : α}
    (hk : xs[k]? = some x) : ys[k]? = some x := by
  obtain ⟨zs, rfl⟩ := h
  rw [List.getElem?_append_left (List.getElem?_eq_some_iff.mp hk).1, hk]

namespace Plant

/-- The numbers of the entries that were handled. -/
def passed (m : Plant ι n E) : List Nat := m.handled.map Handled.number

/-- The entry was passed to `Consumer::handle`, and only once. -/
def HandledOnce (m : Plant ι n E) (k : Nat) : Prop :=
  ∃ h e i, (m.handled.filter fun h => h.number == k) = [h] ∧
    m.ledger.accepted[k]? = some (e, i) ∧ h.cell = .entry e

theorem HandledOnce.congr {m m' : Plant ι n E} {k : Nat} (h : m.HandledOnce k)
    (hhandled : m'.handled = m.handled) (haccepted : m.ledger.accepted <+: m'.ledger.accepted) :
    m'.HandledOnce k := by
  obtain ⟨x, e, i, hfilter, hk, hcell⟩ := h
  exact ⟨x, e, i, by rw [hhandled, hfilter], getElem?_of_prefix haccepted hk, hcell⟩

end Plant

namespace Attendance

open Phase

variable {t : Thread ι n} {φ ψ : Phase n} {o : Op (names ι n E)} {r : o.Result}

/-- What was given to a worker was handled, or the worker is about to. -/
structure Tallied (φ : Thread ι n → Phase n) (m : Plant ι n E) : Prop where
  once : m.passed.Nodup
  passed : ∀ w k, (w, k) ∈ m.ledger.returned →
    k ∈ m.passed ∨ φ (.worker w) = taken ∧ m.ledger.borrowed w = some k
  given : ∀ k ∈ m.passed, k ∈ m.ledger.numbers
  taken : ∀ w, φ (.worker w) = taken →
    ∃ k, m.ledger.borrowed w = some k ∧ (w, k) ∈ m.ledger.returned ∧ k ∉ m.passed
  entry : ∀ h ∈ m.handled,
    ∃ e i, m.ledger.accepted[h.number]? = some (e, i) ∧ h.cell = .entry e

namespace Tallied

variable {φ φ' : Thread ι n → Phase n} {m m' : Plant ι n E}

/-- A step that neither gives an entry to a worker nor handles one. -/
theorem congr (h : Tallied φ m)
    (hφ : ∀ w, φ' (.worker w) = Phase.taken ↔ φ (.worker w) = Phase.taken)
    (hhandled : m'.handled = m.handled) (haccepted : m.ledger.accepted <+: m'.ledger.accepted)
    (hreturned : m'.ledger.returned = m.ledger.returned)
    (hborrowed : ∀ w, φ (.worker w) = Phase.taken → m'.ledger.borrowed w = m.ledger.borrowed w) :
    Tallied φ' m' := by
  have hpassed : m'.passed = m.passed := by rw [Plant.passed, hhandled, Plant.passed]
  constructor
  · rw [hpassed]
    exact h.once
  · intro w k hk
    rw [hreturned] at hk
    rw [hpassed, hφ]
    apply (h.passed w k hk).imp_right
    rintro ⟨hw, hborrow⟩
    exact ⟨hw, by rw [hborrowed w hw, hborrow]⟩
  · intro k hk
    rw [hpassed] at hk
    rw [Ledger.numbers, hreturned]
    exact h.given k hk
  · intro w hw
    rw [hφ] at hw
    rw [hborrowed w hw, hreturned, hpassed]
    exact h.taken w hw
  · intro x hx
    rw [hhandled] at hx
    obtain ⟨e, i, hk, hcell⟩ := h.entry x hx
    exact ⟨e, i, getElem?_of_prefix haccepted hk, hcell⟩

variable [DecidableEq ι]

theorem taken_update {w : Fin n} (hψ : ψ = Phase.taken ↔ φ t = Phase.taken) :
    Function.update φ t ψ (.worker w) = Phase.taken ↔ φ (.worker w) = Phase.taken := by
  by_cases hwt : .worker w = t
  · subst hwt
    rw [Function.update_self, hψ]
  · rw [Function.update_of_ne hwt]

/-- A worker is given an entry. -/
theorem take (h : Tallied φ m) {v : Fin n} {k : Nat} (hφ : φ (.worker v) ≠ Phase.taken)
    (hhandled : m'.handled = m.handled) (haccepted : m'.ledger.accepted = m.ledger.accepted)
    (hreturned : m'.ledger.returned = m.ledger.returned ++ [(v, k)])
    (hborrowed : m'.ledger.borrowed v = some k)
    (hothers : ∀ w, w ≠ v → m'.ledger.borrowed w = m.ledger.borrowed w)
    (honce : m'.ledger.numbers.Nodup) :
    Tallied (Function.update φ (.worker v) Phase.taken) m' := by
  have hpassed : m'.passed = m.passed := by rw [Plant.passed, hhandled, Plant.passed]
  have hnumbers : m'.ledger.numbers = m.ledger.numbers ++ [k] := by
    simp [Ledger.numbers, hreturned]
  have hnew : k ∉ m.passed := by
    intro hk
    rw [hnumbers] at honce
    exact (List.nodup_append.mp honce).2.2 k (h.given k hk) k (by simp) rfl
  constructor
  · rw [hpassed]
    exact h.once
  · intro w j hj
    rw [hreturned, List.mem_append] at hj
    rw [hpassed]
    rcases hj with hj | hj
    · apply (h.passed w j hj).imp_right
      rintro ⟨hw, hborrow⟩
      have hwv : w ≠ v := by
        rintro rfl
        exact hφ hw
      exact ⟨by rwa [Function.update_of_ne (by simpa using hwv)], by rw [hothers w hwv, hborrow]⟩
    · obtain ⟨rfl, rfl⟩ := Prod.mk.inj (List.mem_singleton.mp hj)
      exact .inr ⟨Function.update_self _ _ _, hborrowed⟩
  · intro j hj
    rw [hpassed] at hj
    rw [hnumbers]
    exact List.mem_append_left [k] (h.given j hj)
  · intro w hw
    rw [hpassed, hreturned]
    by_cases hwv : w = v
    · subst hwv
      exact ⟨k, hborrowed, by simp, hnew⟩
    · rw [Function.update_of_ne (by simpa using hwv)] at hw
      obtain ⟨j, hborrow, hj, hjp⟩ := h.taken w hw
      exact ⟨j, by rw [hothers w hwv, hborrow], List.mem_append_left _ hj, hjp⟩
  · intro x hx
    rw [hhandled] at hx
    rw [haccepted]
    exact h.entry x hx

/-- A worker handles what it was given. -/
theorem handle (h : Tallied φ m) {v : Fin n} (hφ : φ (.worker v) = Phase.taken)
    (hψ : ψ ≠ Phase.taken) (honce : m.ledger.numbers.Nodup)
    (hentry : ∀ k, m.ledger.borrowed v = some k → ∃ e i,
      m.ledger.accepted[k]? = some (e, i) ∧
      m.ledger.queue.queueData (m.ledger.queue.readers v).index = .entry e) :
    Tallied (Function.update φ (.worker v) ψ) (m.handle v) := by
  obtain ⟨k, hborrow, hk, hnew⟩ := h.taken v hφ
  have hhandled : (m.handle v).handled = m.handled ++
      [⟨v, k, m.ledger.queue.queueData (m.ledger.queue.readers v).index⟩] := by
    simp [Plant.handle, hborrow]
  have hpassed : (m.handle v).passed = m.passed ++ [k] := by simp [Plant.passed, hhandled]
  -- a number was given to one worker only
  have hother : ∀ w j, (w, j) ∈ m.ledger.returned → w ≠ v → j ≠ k := by
    rintro w j hj hwv rfl
    exact hwv (congrArg Prod.fst (List.inj_on_of_nodup_map honce hj hk rfl))
  constructor
  · rw [hpassed, List.nodup_append]
    refine ⟨h.once, by simp, ?_⟩
    rintro j hj _ hjk rfl
    obtain rfl := List.mem_singleton.mp hjk
    exact hnew hj
  · intro w j hj
    rw [hpassed, List.mem_append]
    rcases h.passed w j hj with hjp | ⟨hw, hborrowed⟩
    · exact .inl (.inl hjp)
    · by_cases hwv : w = v
      · subst hwv
        obtain rfl : k = j := Option.some.inj (hborrow.symm.trans hborrowed)
        exact .inl (.inr (by simp))
      · exact .inr ⟨by rwa [Function.update_of_ne (by simpa using hwv)], hborrowed⟩
  · intro j hj
    rw [hpassed, List.mem_append] at hj
    rcases hj with hj | hj
    · exact h.given j hj
    · obtain rfl := List.mem_singleton.mp hj
      exact List.mem_map_of_mem (f := Prod.snd) hk
  · intro w hw
    by_cases hwv : w = v
    · subst hwv
      rw [Function.update_self] at hw
      exact absurd hw hψ
    · rw [Function.update_of_ne (by simpa using hwv)] at hw
      obtain ⟨j, hborrowed, hj, hjp⟩ := h.taken w hw
      refine ⟨j, hborrowed, hj, ?_⟩
      rw [hpassed, List.mem_append, not_or]
      exact ⟨hjp, by simpa using hother w j hj hwv⟩
  · intro x hx
    rw [hhandled, List.mem_append] at hx
    rcases hx with hx | hx
    · exact h.entry x hx
    · obtain rfl := List.mem_singleton.mp hx
      exact hentry k hborrow

end Tallied

/-! ## What a step does to them -/

/-- The queue serves the workers that are registered, and what it gives away is handled. -/
structure Tended (queueSize : Nat) (φ : Thread ι n → Phase n) (m : Plant ι n E)
    (T : Tickets (Fin n) E) : Prop where
  serving : Ledger.Serving queueSize m.ledger T
  inQueue : ∀ w, φ (.worker w) ≠ absent → φ (.worker w) ≠ fresh →
    (m.ledger.queue.readers w).inQueue = true
  tallied : Tallied φ m

/-- How far a step takes the tickets: a worker that has found its slot empty keeps its
ticket until it wakes. -/
structure Advances (t : Thread ι n) (φ ψ : Phase n) (m m' : Plant ι n E)
    (T T' : Tickets (Fin n) E) : Prop where
  due : m'.due = m.due
  accepted : m.ledger.accepted <+: m'.ledger.accepted
  ticket : ∀ w, (t = .worker w → φ = empty ∨ φ = marked ∨ φ = waiting) → T'.ticket w = T.ticket w
  found : ∀ w, t = .worker w → ψ = empty → φ = empty ∨ m.ledger.accepted.length ≤ T'.ticket w

theorem Turn.taken_iff (h : Turn t φ o r ψ) (hask : ∀ q, o ≠ .ask q) : ψ = taken ↔ φ = taken := by
  cases h with
  | works ht h =>
      cases h with
      | init | remove | handle | isWork => exact absurd rfl (hask _)
      | lock | mark | rouse | wait | resume | unmark | unlock | unlockEmpty | round => simp
  | produces ht h =>
      cases h with
      | waitingFlag w owes b => cases b <;> simp
      | add | enter | leave | pointer | lock | signal | unlock => simp
  | opens ht h =>
      cases h with
      | isRunning b => cases b <;> simp
      | lock | restarted | run | construct | point | found | started | opened => simp
  | stays h => exact Iff.rfl

/-- A worker finds its slot empty by a query. -/
theorem Turn.empty_of_empty (h : Turn t φ o r ψ) (hask : ∀ q, o ≠ .ask q) (hψ : ψ = empty) :
    φ = empty := by
  cases h with
  | works ht h =>
      cases h with
      | init | remove | handle | isWork => exact absurd rfl (hask _)
      | lock | mark | rouse | wait | resume | unmark | unlock | unlockEmpty | round => cases hψ
  | produces ht h =>
      cases h with
      | waitingFlag w owes b => cases b <;> cases hψ
      | add | enter | leave | pointer | lock | signal | unlock => cases hψ
  | opens ht h =>
      cases h with
      | isRunning b => cases b <;> cases hψ
      | lock | restarted | run | construct | point | found | started | opened => cases hψ
  | stays h => exact hψ

namespace Tended

variable [DecidableEq ι] {φ : Thread ι n → Phase n} {s s' : Shared (names ι n E) (Plant ι n E)}
  {m : Plant ι n E} {T T' : Tickets (Fin n) E} {queueSize : Nat}

/-- A step that asks nothing. -/
theorem quiet (h : Tended queueSize φ s.memory T) (hturn : Turn t (φ t) o r ψ)
    (hask : ∀ q, o ≠ .ask q) (heffect : (servedProcessor ι n E).Effect s t o r s') :
    Tended queueSize (Function.update φ t ψ) s'.memory T ∧
      Advances t (φ t) ψ s.memory s'.memory T T := by
  rw [plant_of_effect heffect hask]
  refine ⟨⟨h.serving, ?_, ?_⟩, rfl, List.prefix_refl _, fun _ _ => rfl, ?_⟩
  · refine registered_update h.inQueue (fun _ => id) ?_
    rintro w rfl habsent hfresh
    obtain ⟨habsent', hfresh'⟩ := hturn.registered hask ⟨habsent, hfresh⟩
    exact h.inQueue w habsent' hfresh'
  · refine h.tallied.congr ?_ rfl (List.prefix_refl _) rfl fun _ _ => rfl
    exact fun w => Tallied.taken_update (hturn.taken_iff hask)
  · exact fun w _ hψ => .inl (hturn.empty_of_empty hask hψ)

/-- A query of a worker that was not waiting. -/
theorem query (h : Tended queueSize φ m T) {m' : Plant ι n E} {v : Fin n}
    (hφ : φ (.worker v) ≠ empty ∧ φ (.worker v) ≠ marked ∧ φ (.worker v) ≠ waiting)
    (hempty : ψ = empty → T.written ≤ T'.ticket v)
    (hserving : Ledger.Serving queueSize m'.ledger T')
    (hbesides : Ledger.Besides v m.ledger m'.ledger T T') (hdue : m'.due = m.due)
    (htallied : Tallied (Function.update φ (.worker v) ψ) m') :
    Tended queueSize (Function.update φ (.worker v) ψ) m' T' ∧
      Advances (.worker v) (φ (.worker v)) ψ m m' T T' := by
  refine ⟨⟨hserving, ?_, htallied⟩, hdue, ?_, ?_, ?_⟩
  · refine registered_update h.inQueue (fun w hw => (hbesides.inQueue w).mpr (.inr hw)) ?_
    intro w hw _ _
    exact (hbesides.inQueue w).mpr (.inl (by simpa using hw.symm))
  · rw [hbesides.accepted]
  · intro w hw
    apply hbesides.ticket
    rintro rfl
    simp [hφ] at hw
  · rintro w hw hψ
    obtain rfl : v = w := by simpa using hw
    right
    rw [h.serving.length]
    exact hempty hψ

/-- What a worker asks. -/
theorem works (h : Tended queueSize φ m T) {v : Fin n} {χ : Phase n} {q : Query n E} {a : Int}
    {m' : Plant ι n E} (hφ : φ (.worker v) = χ) (hturn : Works v χ (.ask q : Op (names ι n E)) a ψ)
    (hreply : Plant.Replies (.worker v) m q a m') :
    ∃ T', Tended queueSize (Function.update φ (.worker v) ψ) m' T' ∧
      Advances (.worker v) (φ (.worker v)) ψ m m' T T' := by
  cases hturn with
  | init a =>
      cases hreply with
      | init hrun a =>
          obtain ⟨T', hserving, hbesides, hreturned⟩ := h.serving.startAccess hrun
          refine ⟨T', h.query (by simp [hφ]) (by simp) hserving hbesides rfl ?_⟩
          refine h.tallied.congr (fun w => Tallied.taken_update (by simp [hφ])) rfl ?_ hreturned ?_
          · rw [hbesides.accepted]
          · rintro w hw
            apply hbesides.borrowed
            rintro rfl
            simp [hφ] at hw
  | remove entry =>
      cases hreply with
      | remove hrun hentry =>
          have hin := h.inQueue v (by simp [hφ]) (by simp [hφ])
          obtain ⟨T', hserving, hbesides, hresult⟩ := h.serving.remove hin hrun
          refine ⟨T', h.query (by simp [hφ]) (by split <;> simp) hserving hbesides rfl ?_⟩
          rcases hresult with ⟨hborrowed, hreturned⟩ | ⟨k, hborrowed, hreturned⟩
          · rw [hborrowed] at hentry
            have hzero : a = 0 := by simpa using hentry
            rw [if_pos hzero]
            refine h.tallied.congr (fun w => Tallied.taken_update (by simp [hφ])) rfl ?_
              hreturned ?_
            · rw [hbesides.accepted]
            · rintro w hw
              apply hbesides.borrowed
              rintro rfl
              simp [hφ] at hw
          · rw [hborrowed] at hentry
            have hsome : a ≠ 0 := by simpa using hentry
            rw [if_neg hsome]
            exact h.tallied.take (by simp [hφ]) rfl hbesides.accepted hreturned hborrowed
              hbesides.borrowed hserving.once
  | handle =>
      cases hreply with
      | handle =>
          have hin := h.inQueue v (by simp [hφ]) (by simp [hφ])
          have hbesides : Ledger.Besides v m.ledger (m.handle v).ledger T T :=
            .of_readers hin rfl (fun _ => rfl) rfl
          refine ⟨T, h.query (by simp [hφ]) (by simp) h.serving hbesides rfl ?_⟩
          exact h.tallied.handle hφ (by simp) h.serving.once fun k => h.serving.entry
  | isWork work =>
      cases hreply with
      | isWork hwork =>
          have hin := h.inQueue v (by simp [hφ]) (by simp [hφ])
          have hbesides : Ledger.Besides v m.ledger (m.ledger.isEmpty v) T T :=
            .of_readers hin rfl (fun _ => by simp [Ledger.isEmpty, SyncQueue.isEmpty]) rfl
          refine ⟨T, h.query (by simp [hφ]) ?_ (h.serving.isEmpty v) hbesides rfl ?_⟩
          · by_cases hzero : a = 0
            · rw [h.serving.slotIsEmpty hin] at hwork
              intro _
              simpa [hzero] using hwork
            · simp [hzero]
          · refine h.tallied.congr (fun w => Tallied.taken_update ?_) rfl (List.prefix_refl _) rfl
              fun _ _ => rfl
            rw [hφ]
            split <;> simp

/-- An `add`. -/
theorem add (h : Tended queueSize φ m T) {i : ι} (e : E) (added : Thread ι n → Bool) :
    ∃ T', Tended queueSize (Function.update φ (.client i) ψ)
        { m with ledger := m.ledger.add e, added := added } T' ∧
      Advances (.client i) (φ (.client i)) ψ m
        { m with ledger := m.ledger.add e, added := added } T T' := by
  obtain ⟨T', hserving, hfed, -⟩ := h.serving.add e
  have hother : ∀ w, Function.update φ (.client i) ψ (.worker w) = φ (.worker w) :=
    fun w => Function.update_of_ne (by simp) _ _
  refine ⟨T', ⟨hserving, ?_, ?_⟩, rfl, hfed.accepted, fun w _ => by rw [hfed.ticket], ?_⟩
  · intro w habsent hfresh
    rw [hother] at habsent hfresh
    rw [hfed.readers]
    exact h.inQueue w habsent hfresh
  · exact h.tallied.congr (fun w => by rw [hother]) rfl hfed.accepted hfed.returned
      fun w _ => by rw [hfed.borrowed]
  · intro w hw
    cases hw

/-- What one step preserves. -/
theorem turn (h : Tended queueSize φ s.memory T) (hturn : Turn t (φ t) o r ψ)
    (heffect : (servedProcessor ι n E).Effect s t o r s') :
    ∃ T', Tended queueSize (Function.update φ t ψ) s'.memory T' ∧
      Advances t (φ t) ψ s.memory s'.memory T T' := by
  by_cases hask : ∀ q, o ≠ .ask q
  · exact ⟨T, h.quiet hturn hask heffect⟩
  · obtain ⟨q, rfl⟩ := not_forall_not.mp hask
    cases heffect with
    | @ask _ a m hreply =>
        replace hreply := Plant.replies_of_reply hreply
        generalize hφ : φ t = χ at hturn
        cases hturn with
        | works ht hturn =>
            subst ht
            rw [← hφ]
            exact h.works hφ hturn hreply
        | produces ht hturn =>
            subst ht
            rw [← hφ]
            cases hturn with
            | add ws e =>
                cases hreply with
                | add => exact h.add e _
        | opens ht hturn => cases hturn
        | stays hplain =>
            rw [← hφ, Function.update_eq_self]
            have hstays : Advances t (φ t) (φ t) s.memory s.memory T T :=
              ⟨rfl, List.prefix_refl _, fun _ _ => rfl, fun _ _ hempty => .inl hempty⟩
            cases hreply with
            | isMaxSize | started => exact ⟨T, h, hstays⟩
            | add | init | finalize | remove | handle | isWork => cases hplain

omit [DecidableEq ι] in
/-- Where every worker waits with a later ticket, the entry was handled once. -/
theorem handledOnce (h : Tended queueSize φ m T) {k : Nat} (hn : 0 < n)
    (hk : k < m.ledger.accepted.length)
    (hwaiting : ∀ w, φ (.worker w) = waiting ∧ k < T.ticket w) : m.HandledOnce k := by
  have hin : ∀ w, (m.ledger.queue.readers w).inQueue = true := fun w =>
    h.inQueue w (by simp [(hwaiting w).1]) (by simp [(hwaiting w).1])
  rw [h.serving.length] at hk
  have hnumber := h.serving.mem_numbers (hin ⟨0, hn⟩) hk fun w _ => (hwaiting w).2
  obtain ⟨⟨w, _⟩, hgiven, rfl⟩ := List.mem_map.mp hnumber
  have hpassed := (h.tallied.passed w _ hgiven).resolve_right fun htaken => by
    simp [(hwaiting w).1] at htaken
  have hone := List.count_eq_one_of_mem h.tallied.once hpassed
  rw [Plant.passed, List.count, List.countP_map, List.countP_eq_length_filter] at hone
  obtain ⟨x, hx⟩ := List.length_eq_one_iff.mp hone
  obtain ⟨hmem, hnumber⟩ := List.mem_filter.mp (hx ▸ List.mem_singleton_self x)
  obtain ⟨e, i, haccepted, hcell⟩ := h.tallied.entry x hmem
  exact ⟨x, e, i, hx, by rwa [← eq_of_beq hnumber], hcell⟩

end Tended

end Attendance

end HPQueue

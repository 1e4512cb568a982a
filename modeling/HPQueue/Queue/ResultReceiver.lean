import HPQueue.Library.Protocol

/-!
# Results

A consumer hands the result of an entry to the producer that waits for it: the entry
has a `ResultReceiverHolder`, linked to the producer's `ResultReceiver`.  `setValue`
and `setEmpty` populate the receiver and unlink the holder; `getValue` waits until
the receiver is populated.

It waits once, and does not look at the flag again when it is woken.  A wait may end
though nobody has signalled, and then `getValue` returns what the receiver was
constructed with.

Any thread may call any of the three, for any of the holders that are linked to the
receiver, and the value is one word, so that it is read and written in one step.

## Main results

* `obeyed` — the positions of the three methods.
* `notEarly_of_undisturbed` — no result is early as long as no wait ends by itself and
  no two holders are set to different values.
* `early_of_spurious` — a wait that ends by itself.
-/

namespace HPQueue

open Library.Threads Library.Transition Prog

namespace ResultReceiver

inductive Lock (η : Type)
  | isPopulatedLock
  | identifierLock (h : η)
  deriving DecidableEq

inductive Cond
  | isPopulatedCond
  deriving DecidableEq

inductive Load (η : Type)
  | isPopulatedFlag
  /-- Whether the holder's pointer is not null. -/
  | resultReceiver (h : η)

/-- Who has populated the receiver: the holder, and what it was set to. -/
structure Population (η V : Type) where
  holder : η
  value : Option V
  deriving DecidableEq

inductive Store (η V : Type)
  /-- `isPopulatedFlag = true`, and by whom. -/
  | isPopulatedFlag (p : Population η V)
  /-- `DataHolder::setValue`. -/
  | value (h : η) (v : V)
  /-- `resultReceiver = NULL`. -/
  | resultReceiver (h : η)

inductive Query
  /-- `getCurrentValue`, whose result `getValue` returns. -/
  | getCurrentValue

inductive Call (η V : Type)
  | getValue
  | setEmpty (h : η)
  | setValue (h : η) (v : V)

abbrev names (τ η V : Type) : Signature where
  Thread := τ
  Lock := Lock η
  Cond := Cond
  Load := Load η
  Store := Store η V
  Query := Query
  Proc := Empty
  Call := Call η V

/-- A receiver, the holders that were linked to it, and their history. -/
structure Memory (τ η V : Type) where
  isPopulatedFlag : Bool
  value : V
  isLinked : η → Bool
  /-- The values holders were set to, the latest first. -/
  stored : List (η × V)
  /-- The latest first. -/
  populations : List (Population η V)
  /-- What the last `getValue` of the thread has returned, and who had populated the
  receiver by then. -/
  returned : τ → Option (V × List (Population η V))

variable {τ η V : Type}

/-! ## The methods -/

/-- `ResultReceiver::setPopulated`, called by a holder. -/
def setPopulated (p : Population η V) : Prog (names τ η V) Unit := do
  acquire .isPopulatedLock
  store (.isPopulatedFlag p)
  Prog.signal .isPopulatedCond
  release .isPopulatedLock

/-- `ResultReceiver::getValue(bool)`. -/
def getValue (block : Bool) : Prog (names τ η V) Unit := do
  if block then
    if !(← load .isPopulatedFlag) then
      acquire .isPopulatedLock
      if !(← load .isPopulatedFlag) then
        wait .isPopulatedCond .isPopulatedLock
      release .isPopulatedLock
  let _ ← ask .getCurrentValue

/-- `ResultReceiverHolder::setEmpty`. -/
def setEmpty (h : η) : Prog (names τ η V) Unit := do
  if ← load (.resultReceiver h) then
    acquire (.identifierLock h)
    if ← load (.resultReceiver h) then
      setPopulated ⟨h, none⟩
      store (.resultReceiver h)
    release (.identifierLock h)

/-- `ResultReceiverHolder::setValue`. -/
def setValue (h : η) (v : V) : Prog (names τ η V) Unit := do
  if ← load (.resultReceiver h) then
    acquire (.identifierLock h)
    if ← load (.resultReceiver h) then
      store (.value h v)
      setPopulated ⟨h, some v⟩
      store (.resultReceiver h)
    release (.identifierLock h)

def method : Call η V → Prog (names τ η V) Unit
  | .getValue => getValue true
  | .setEmpty h => setEmpty h
  | .setValue h v => setValue h v

/-! ## Positions -/

/-- Where a thread stands. -/
inductive Phase (η V : Type)
  | out
  /-- In `getValue`, and the receiver is populated. -/
  | seen
  /-- In `getValue`, waiting. -/
  | waiting
  /-- With the holder's lock. -/
  | holding (h : η)
  /-- So, and found it linked. -/
  | linked (h : η)
  /-- So, and has stored its value. -/
  | set (h : η) (v : V)
  /-- So, and has populated the receiver. -/
  | populated (h : η)
  deriving DecidableEq

namespace Phase

/-- The holder whose lock the thread holds. -/
def holder : Phase η V → Option η
  | holding h | linked h | set h _ | populated h => some h
  | out | seen | waiting => none

/-- The holder whose link the thread has found, and not used yet. -/
def fresh : Phase η V → Option η
  | linked h | set h _ => some h
  | out | seen | waiting | holding _ | populated _ => none

end Phase

open scoped Classical in
/-- The operations of the three methods. -/
noncomputable def step (φ : Phase η V) : (o : Op (names τ η V)) → o.Result → Option (Phase η V)
  | .acquire (.identifierLock h), _ => if φ = .out then some (.holding h) else none
  | .release (.identifierLock h), _ => if φ = .holding h then some .out else none
  | .acquire .isPopulatedLock, _ => some φ
  | .release .isPopulatedLock, _ => some φ
  | .wait .isPopulatedCond .isPopulatedLock, _ => if φ = .out then some .waiting else none
  | .resume .isPopulatedCond .isPopulatedLock, _ => if φ = .waiting then some .seen else none
  | .load .isPopulatedFlag, b => if φ = .out then some (bif b then .seen else .out) else none
  | .load (.resultReceiver h), b =>
      if φ = .holding h then some (bif b then .linked h else .holding h)
      else if φ = .out then some .out else none
  | .store (.value h v), _ => if φ = .linked h then some (.set h v) else none
  | .store (.isPopulatedFlag p), _ =>
      if φ = (match p.value with | none => .linked p.holder | some v => .set p.holder v) then
        some (.populated p.holder)
      else none
  | .signal .isPopulatedCond, _ =>
      match φ with
      | .populated h => some (.populated h)
      | _ => none
  | .store (.resultReceiver h), _ => if φ = .populated h then some (.holding h) else none
  | .ask .getCurrentValue, _ => if φ = .seen then some .out else none
  | _, _ => none

noncomputable def protocol (τ η V : Type) : Protocol (names τ η V) (Phase η V) where
  trans _ φ o r := step φ o r
  pre _ p _ := p.elim
  post _ p _ _ _ := p.elim
  final _ φ := φ = .out

variable {t : τ}

theorem conforms_getValue :
    Conforms (protocol τ η V) t .out (getValue true) fun _ φ => φ = .out := by
  simp [getValue, Conforms, protocol, step]

theorem conforms_setEmpty (h : η) :
    Conforms (protocol τ η V) t .out (setEmpty h) fun _ φ => φ = .out := by
  simp [setEmpty, setPopulated, Conforms, protocol, step]

theorem conforms_setValue (h : η) (v : V) :
    Conforms (protocol τ η V) t .out (setValue h v) fun _ φ => φ = .out := by
  simp [setValue, setPopulated, Conforms, protocol, step]

/-! ## The machine -/

namespace Memory

/-- A receiver that was just constructed. -/
def new (τ η : Type) {V : Type} (value : V) : Memory τ η V where
  isPopulatedFlag := false
  value := value
  isLinked := fun _ => true
  stored := []
  populations := []
  returned := fun _ => none

def load (m : Memory τ η V) : Load η → Bool
  | .isPopulatedFlag => m.isPopulatedFlag
  | .resultReceiver h => m.isLinked h

def store [DecidableEq η] (m : Memory τ η V) : Store η V → Memory τ η V
  | .isPopulatedFlag p => { m with isPopulatedFlag := true, populations := p :: m.populations }
  | .value h v => { m with value := v, stored := (h, v) :: m.stored }
  | .resultReceiver h => { m with isLinked := Function.update m.isLinked h false }

end Memory

variable [DecidableEq τ] [DecidableEq η]

def machine (τ η V : Type) [DecidableEq τ] [DecidableEq η] :
    Machine (names τ η V) (Memory τ η V) where
  body := Empty.elim
  main _ := done ()
  entry t c m := some ({ m with returned := Function.update m.returned t none }, method c)
  load x m := m.load x
  store _ x m := m.store x
  reply t _ _ m :=
    some { m with returned := Function.update m.returned t (some (m.value, m.populations)) }

/-- Nobody has begun. -/
def start (τ η : Type) {V : Type} (value : V) : State (names τ η V) (Memory τ η V) where
  prog _ := done ()
  shared :=
    { held := fun _ => none
      asleep := fun _ => ∅
      memory := .new τ η value }

/-- What `getValue` promises: it returns only once the receiver is populated, no holder
populates it twice, and if one has populated it with a value, that value is returned. -/
structure NotEarly (m : Memory τ η V) : Prop where
  populated : ∀ t v ps, m.returned t = some (v, ps) → ps ≠ []
  once : (m.populations.map Population.holder).Nodup
  value : ∀ t v ps, m.returned t = some (v, ps) → ∀ p ∈ ps, ∀ v', p.value = some v' → v = v'

/-- The value a holder is about to be set to. -/
def aboutToSet : Prog (names τ η V) Unit → Option V
  | .op (.store (.value _ v)) _ => some v
  | _ => none

/-- The condition on a step: no wait ends by itself before the receiver is populated, and
no value is stored after a different one. -/
def Undisturbed (s : State (names τ η V) (Memory τ η V)) : Label (names τ η V) → Prop
  | .spurious _ => s.shared.memory.isPopulatedFlag = true
  | .step t _ => ∀ v ∈ aboutToSet (s.prog t), ∀ a ∈ s.shared.memory.stored, a.2 = v
  | .enter _ _ => True

/-- The methods keep to their positions. -/
theorem obeyed : (protocol τ η V).Obeyed (machine τ η V) where
  body := fun _ p => p.elim
  main := fun _ _ h => h
  entry := by
    rintro t c m m' p φ hentry rfl
    obtain ⟨-, rfl⟩ := Prod.ext_iff.mp (Option.some.inj hentry)
    cases c with
    | getValue => exact conforms_getValue
    | setEmpty h => exact conforms_setEmpty h
    | setValue h v => exact conforms_setValue h v

/-! ## The invariant -/

/-- What a thread can rely on where it stands. -/
def Knows (s : Shared (names τ η V) (Memory τ η V)) (t : τ) : Phase η V → Prop
  | .out | .holding _ => True
  | .seen | .populated _ => s.memory.isPopulatedFlag = true
  | .waiting => t ∉ s.asleep .isPopulatedCond → s.memory.isPopulatedFlag = true
  | .linked h => ∀ p ∈ s.memory.populations, p.holder ≠ h
  | .set h v => (∀ p ∈ s.memory.populations, p.holder ≠ h) ∧ (h, v) ∈ s.memory.stored

/-- What the history of a receiver looks like. -/
structure Record (m : Memory τ η V) : Prop where
  flag : m.isPopulatedFlag = true → m.populations ≠ []
  once : (m.populations.map Population.holder).Nodup
  alike : ∀ a ∈ m.stored, ∀ b ∈ m.stored, a.2 = b.2
  value : m.stored = [] ∨ ∃ h, (h, m.value) ∈ m.stored
  sources : ∀ p ∈ m.populations, ∀ v, p.value = some v → (p.holder, v) ∈ m.stored
  returned : ∀ t v ps, m.returned t = some (v, ps) →
    ps ≠ [] ∧ ∀ p ∈ ps, ∀ v', p.value = some v' → (p.holder, v') ∈ m.stored ∧ ∃ h, (h, v) ∈ m.stored

structure Inv (φ : τ → Phase η V) (s : Shared (names τ η V) (Memory τ η V)) : Prop where
  holder : ∀ t h, (φ t).holder = some h ↔ s.held (.identifierLock h) = some t
  knows : ∀ t, Knows s t (φ t)
  /-- Only the thread that has populated the receiver can find its holder linked. -/
  unlinked : ∀ p ∈ s.memory.populations, s.memory.isLinked p.holder = true →
    ∃ t, φ t = .populated p.holder
  record : Record s.memory

omit [DecidableEq τ] [DecidableEq η] in
theorem Record.notEarly {m : Memory τ η V} (h : Record m) : NotEarly m where
  populated t v ps hreturned := (h.returned t v ps hreturned).1
  once := h.once
  value := by
    intro t v ps hreturned p hp v' hv'
    obtain ⟨hstored, h', hvalue⟩ := (h.returned t v ps hreturned).2 p hp v' hv'
    exact h.alike _ hvalue _ hstored

namespace Inv

variable {φ : τ → Phase η V} {s s' : Shared (names τ η V) (Memory τ η V)} {t : τ} {ψ : Phase η V}

omit [DecidableEq τ] [DecidableEq η] in
/-- Two threads do not hold the lock of one holder. -/
theorem eq_of_holder (h : Inv φ s) {u : τ} {x : η} (ht : (φ t).holder = some x)
    (hu : (φ u).holder = some x) : u = t :=
  Option.some.inj (((h.holder u x).mp hu).symm.trans ((h.holder t x).mp ht))

omit [DecidableEq η] in
/-- A thread moves, without a holder's lock changing hands. -/
theorem move (h : Inv φ s)
    (hheld : ∀ x, s'.held (.identifierLock x) = s.held (.identifierLock x))
    (hsame : ψ.holder = (φ t).holder) (hψ : Knows s' t ψ)
    (hothers : ∀ u, u ≠ t → Knows s u (φ u) → Knows s' u (φ u))
    (hunlinked : ∀ p ∈ s'.memory.populations, s'.memory.isLinked p.holder = true →
      ψ = .populated p.holder ∨ ∃ u, u ≠ t ∧ φ u = .populated p.holder)
    (hrecord : Record s'.memory) : Inv (Function.update φ t ψ) s' where
  holder u x := by
    rw [hheld, ← h.holder u x]
    by_cases hut : u = t
    · subst hut
      simp [hsame]
    · simp [hut]
  knows u := by
    by_cases hut : u = t
    · subst hut
      simpa using hψ
    · rw [Function.update_of_ne hut]
      exact hothers u hut (h.knows u)
  unlinked p hp hlinked := by
    rcases hunlinked p hp hlinked with hψ | ⟨u, hut, hu⟩
    · exact ⟨t, by simp [hψ]⟩
    · exact ⟨u, by simp [hut, hu]⟩
  record := hrecord

omit [DecidableEq η] in
/-- A thread moves, and the memory stays as it is. -/
theorem look (h : Inv φ s) (hheld : ∀ x, s'.held (.identifierLock x) = s.held (.identifierLock x))
    (hmemory : s'.memory = s.memory) (hsame : ψ.holder = (φ t).holder)
    (hnot : ∀ x, φ t ≠ .populated x) (hψ : Knows s' t ψ)
    (hothers : ∀ u, u ≠ t → Knows s u (φ u) → Knows s' u (φ u)) :
    Inv (Function.update φ t ψ) s' := by
  apply h.move hheld hsame hψ hothers
  · intro p hp hlinked
    rw [hmemory] at hp hlinked
    obtain ⟨u, hu⟩ := h.unlinked p hp hlinked
    refine .inr ⟨u, ?_, hu⟩
    rintro rfl
    exact hnot _ hu
  · rw [hmemory]
    exact h.record

/-- A holder's lock is acquired, or released. -/
theorem lock (h : Inv φ s) {x : η} {owner : Option τ}
    (howner : ∀ u, u ≠ t → (φ u).holder = some x ∨ owner = some u → False)
    (hother : ∀ y, y ≠ x → ((φ t).holder = some y ↔ ψ.holder = some y))
    (ht : ψ.holder = some x ↔ owner = some t) (hψ : Knows s t ψ)
    (hnot : ∀ x, φ t ≠ .populated x) :
    Inv (Function.update φ t ψ) (s.lock (.identifierLock x) owner) where
  holder u y := by
    by_cases hy : y = x
    · subst hy
      by_cases hut : u = t
      · subst hut
        simp [Shared.lock, ht]
      · have hu : (φ u).holder ≠ some y := fun hu => howner u hut (.inl hu)
        have ho : owner ≠ some u := fun ho => howner u hut (.inr ho)
        simp [Shared.lock, hut, hu, ho]
    · have hsame : (s.lock (.identifierLock x) owner).held (.identifierLock y) =
          s.held (.identifierLock y) := by simp [Shared.lock, hy]
      rw [hsame, ← h.holder u y]
      by_cases hut : u = t
      · subst hut
        simp [hother y hy]
      · simp [hut]
  knows u := by
    by_cases hut : u = t
    · subst hut
      rw [Function.update_self]
      cases ψ <;> exact hψ
    · rw [Function.update_of_ne hut]
      have hu := h.knows u
      cases hφ : φ u <;> rw [hφ] at hu <;> exact hu
  unlinked p hp hlinked := by
    obtain ⟨u, hu⟩ := h.unlinked p hp hlinked
    refine ⟨u, ?_⟩
    rw [Function.update_of_ne (by rintro rfl; exact hnot _ hu)]
    exact hu
  record := h.record

omit [DecidableEq τ] in
/-- The lock of the receiver plays no part. -/
theorem lockPopulated (h : Inv φ s) (owner : Option τ) : Inv φ (s.lock .isPopulatedLock owner) where
  holder u x := by simpa [Shared.lock] using h.holder u x
  knows u := by
    have hu := h.knows u
    cases hφ : φ u <;> rw [hφ] at hu <;> exact hu
  unlinked := h.unlinked
  record := h.record

omit [DecidableEq τ] [DecidableEq η] in
/-- Once the receiver is populated, threads may wake. -/
theorem sleep (h : Inv φ s) (hflag : s.memory.isPopulatedFlag = true) (ts : Finset τ) :
    Inv φ (s.sleep .isPopulatedCond ts) where
  holder := h.holder
  knows u := by
    have hu := h.knows u
    cases hφ : φ u <;> rw [hφ] at hu <;> first
      | exact hu
      | exact fun _ => hflag
  unlinked := h.unlinked
  record := h.record

/-- A thread stores a value, and no other was stored. -/
theorem storeValue (h : Inv φ s) {x : η} {v : V} (hφ : φ t = .linked x)
    (halike : ∀ a ∈ s.memory.stored, a.2 = v) :
    Inv (Function.update φ t (.set x v)) { s with memory := s.memory.store (.value x v) } := by
  have hknows := h.knows t
  rw [hφ] at hknows
  refine h.move (fun _ => rfl) (by rw [hφ]; rfl) ?_ ?_ ?_ ?_
  · exact ⟨hknows, List.mem_cons_self ..⟩
  · intro u hut hu
    cases hφu : φ u <;> rw [hφu] at hu <;> first
      | exact hu
      | exact ⟨hu.1, List.mem_cons_of_mem _ hu.2⟩
  · intro p hp hlinked
    obtain ⟨u, hu⟩ := h.unlinked p hp hlinked
    refine .inr ⟨u, ?_, hu⟩
    rintro rfl
    rw [hφ] at hu
    cases hu
  · refine ⟨h.record.flag, h.record.once, ?_, ?_, ?_, ?_⟩
    · have hall : ∀ a ∈ (x, v) :: s.memory.stored, a.2 = v := by
        intro a ha
        rcases List.mem_cons.mp ha with rfl | ha
        · rfl
        · exact halike a ha
      exact fun a ha b hb => (hall a ha).trans (hall b hb).symm
    · exact .inr ⟨x, List.mem_cons_self ..⟩
    · exact fun p hp v' hv' => List.mem_cons_of_mem _ (h.record.sources p hp v' hv')
    · intro u w ps hreturned
      obtain ⟨hne, hps⟩ := h.record.returned u w ps hreturned
      refine ⟨hne, fun p hp v' hv' => ?_⟩
      obtain ⟨hstored, y, hy⟩ := hps p hp v' hv'
      exact ⟨List.mem_cons_of_mem _ hstored, y, List.mem_cons_of_mem _ hy⟩

/-- A thread populates the receiver with what it has stored. -/
theorem storePopulated (h : Inv φ s) {p : Population η V}
    (hφ : φ t = match p.value with | none => .linked p.holder | some v => .set p.holder v) :
    Inv (Function.update φ t (.populated p.holder))
      { s with memory := s.memory.store (.isPopulatedFlag p) } := by
  have hknows := h.knows t
  obtain ⟨hholder, hfresh, hstored⟩ : (φ t).holder = some p.holder ∧
      (∀ q ∈ s.memory.populations, q.holder ≠ p.holder) ∧
      ∀ v, p.value = some v → (p.holder, v) ∈ s.memory.stored := by
    cases hv : p.value with
    | none =>
        rw [hv] at hφ
        rw [hφ] at hknows
        exact ⟨by rw [hφ]; rfl, hknows, by simp⟩
    | some v =>
        rw [hv] at hφ
        rw [hφ] at hknows
        exact ⟨by rw [hφ]; rfl, hknows.1, by simpa using hknows.2⟩
  refine h.move (fun _ => rfl) hholder.symm ?_ ?_ ?_ ?_
  · exact rfl
  · intro u hut hu
    -- Nobody else has found this holder linked.
    have hne : ∀ y, (φ u).holder = some y → p.holder ≠ y := by
      rintro y hy rfl
      exact hut (h.eq_of_holder hholder hy)
    cases hφu : φ u <;> rw [hφu] at hu hne <;> first
      | exact hu
      | exact rfl
      | exact fun _ => rfl
      | exact List.forall_mem_cons.mpr ⟨hne _ rfl, hu⟩
      | exact ⟨List.forall_mem_cons.mpr ⟨hne _ rfl, hu.1⟩, hu.2⟩
  · intro q hq hlinked
    rcases List.mem_cons.mp hq with rfl | hq
    · exact .inl rfl
    · obtain ⟨u, hu⟩ := h.unlinked q hq hlinked
      refine .inr ⟨u, ?_, hu⟩
      rintro rfl
      rw [hu] at hholder
      exact hfresh q hq (Option.some.inj hholder)
  · refine ⟨fun _ => List.cons_ne_nil _ _, ?_, h.record.alike, h.record.value, ?_,
      h.record.returned⟩
    · refine List.nodup_cons.mpr ⟨?_, h.record.once⟩
      intro hmem
      obtain ⟨q, hq, hqp⟩ := List.mem_map.mp hmem
      exact hfresh q hq hqp
    · intro q hq v hv
      rcases List.mem_cons.mp hq with rfl | hq
      · exact hstored v hv
      · exact h.record.sources q hq v hv

/-- A thread unlinks the holder. -/
theorem unlink (h : Inv φ s) {x : η} (hφ : φ t = .populated x) :
    Inv (Function.update φ t (.holding x))
      { s with memory := s.memory.store (.resultReceiver x) } := by
  refine h.move (fun _ => rfl) (by rw [hφ]; rfl) trivial ?_ ?_ ?_
  · intro u hut hu
    cases hφu : φ u <;> rw [hφu] at hu <;> exact hu
  · intro p hp hlinked
    have hne : p.holder ≠ x := by
      rintro rfl
      simp [Memory.store] at hlinked
    obtain ⟨u, hu⟩ := h.unlinked p hp (by simpa [Memory.store, hne] using hlinked)
    refine .inr ⟨u, ?_, hu⟩
    rintro rfl
    rw [hφ] at hu
    cases hu
    exact hne rfl
  · exact ⟨h.record.flag, h.record.once, h.record.alike, h.record.value, h.record.sources,
      h.record.returned⟩

omit [DecidableEq η] in
/-- A thread reads the value it returns. -/
theorem getCurrentValue (h : Inv φ s) (hφ : φ t = .seen) :
    Inv (Function.update φ t .out)
      { s with memory := { s.memory with
          returned := Function.update s.memory.returned t
            (some (s.memory.value, s.memory.populations)) } } := by
  have hflag := h.knows t
  rw [hφ] at hflag
  refine h.move (fun _ => rfl) (by rw [hφ]; rfl) trivial ?_ ?_ ?_
  · intro u hut hu
    cases hφu : φ u <;> rw [hφu] at hu <;> exact hu
  · intro p hp hlinked
    obtain ⟨u, hu⟩ := h.unlinked p hp hlinked
    refine .inr ⟨u, ?_, hu⟩
    rintro rfl
    rw [hφ] at hu
    cases hu
  · refine ⟨h.record.flag, h.record.once, h.record.alike, h.record.value, h.record.sources, ?_⟩
    intro u v ps hreturned
    by_cases hut : u = t
    · subst hut
      obtain ⟨rfl, rfl⟩ : s.memory.value = v ∧ s.memory.populations = ps := by
        simpa using hreturned
      refine ⟨h.record.flag hflag, fun p hp v' hv' => ?_⟩
      have hstored := h.record.sources p hp v' hv'
      refine ⟨hstored, ?_⟩
      rcases h.record.value with hnone | hvalue
      · rw [hnone] at hstored
        cases hstored
      · exact hvalue
    · exact h.record.returned u v ps (by simpa [hut] using hreturned)

omit [DecidableEq η] in
/-- A thread is given a call. -/
theorem enter (h : Inv φ s) (t : τ) :
    Inv φ { s with memory := { s.memory with
      returned := Function.update s.memory.returned t none } } where
  holder := h.holder
  knows u := by
    have hu := h.knows u
    cases hφ : φ u <;> rw [hφ] at hu <;> exact hu
  unlinked := h.unlinked
  record := by
    refine ⟨h.record.flag, h.record.once, h.record.alike, h.record.value, h.record.sources, ?_⟩
    intro u v ps hreturned
    by_cases hut : u = t
    · subst hut
      simp at hreturned
    · exact h.record.returned u v ps (by simpa [hut] using hreturned)

end Inv

omit [DecidableEq τ] [DecidableEq η] in
theorem inv_start (value : V) : Inv (fun _ => .out) (start τ η value).shared where
  holder t h := by simp [Phase.holder, start]
  knows t := trivial
  unlinked p hp := by simp [start, Memory.new] at hp
  record :=
    { flag := by simp [start, Memory.new]
      once := by simp [start, Memory.new]
      alike := by simp [start, Memory.new]
      value := .inl rfl
      sources := by simp [start, Memory.new]
      returned := by simp [start, Memory.new] }

/-- What one operation preserves, unless it stores a value after a different one. -/
theorem inv_of_effect {φ : τ → Phase η V} {s s' : Shared (names τ η V) (Memory τ η V)} {t : τ}
    {ψ : Phase η V} {o : Op (names τ η V)} {r : o.Result} (h : Inv φ s)
    (heffect : (machine τ η V).Effect s t o r s') (hψ : step (φ t) o r = some ψ)
    (halike : ∀ x v, o = .store (.value x v) → ∀ a ∈ s.memory.stored, a.2 = v) :
    Inv (Function.update φ t ψ) s' := by
  cases heffect with
  | @acquire l hfree =>
      cases l with
      | isPopulatedLock =>
          obtain rfl : φ t = ψ := Option.some.inj hψ
          rw [Function.update_eq_self]
          exact h.lockPopulated _
      | identifierLock x =>
          obtain ⟨hφ, rfl⟩ : φ t = .out ∧ .holding x = ψ := by simpa [step] using hψ
          apply h.lock
          · rintro u hut (hu | hu)
            · rw [(h.holder u x).mp hu] at hfree
              cases hfree
            · exact hut (Option.some.inj hu).symm
          · intro y hy
            simp [hφ, Phase.holder, Ne.symm hy]
          · simp [Phase.holder]
          · trivial
          · simp [hφ]
  | @release l hheld =>
      cases l with
      | isPopulatedLock =>
          obtain rfl : φ t = ψ := Option.some.inj hψ
          rw [Function.update_eq_self]
          exact h.lockPopulated _
      | identifierLock x =>
          obtain ⟨hφ, rfl⟩ : φ t = .holding x ∧ .out = ψ := by simpa [step] using hψ
          apply h.lock
          · rintro u hut (hu | hu)
            · exact hut (h.eq_of_holder (by rw [hφ]; rfl) hu)
            · cases hu
          · intro y hy
            simp [hφ, Phase.holder, Ne.symm hy]
          · simp [Phase.holder]
          · trivial
          · simp [hφ]
  | @wait c l hheld =>
      cases c
      cases l with
      | identifierLock x => cases hψ
      | isPopulatedLock =>
          obtain ⟨hφ, rfl⟩ : φ t = .out ∧ .waiting = ψ := by simpa [step] using hψ
          refine h.look (fun _ => by simp [Shared.lock, Shared.sleep]) rfl (by rw [hφ]; rfl)
            (by simp [hφ]) ?_ ?_
          · simp [Knows, Shared.sleep]
          · intro u hut hu
            cases hφu : φ u <;> rw [hφu] at hu <;> first
              | exact hu
              | exact fun hawake => hu (by simpa [Shared.sleep, Shared.lock, hut] using hawake)
  | @resume c l hawake hfree =>
      cases c
      cases l with
      | identifierLock x => cases hψ
      | isPopulatedLock =>
          obtain ⟨hφ, rfl⟩ : φ t = .waiting ∧ .seen = ψ := by simpa [step] using hψ
          have hknows := h.knows t
          rw [hφ] at hknows
          refine (h.look (fun _ => rfl) rfl (by rw [hφ]; rfl) (by simp [hφ]) ?_ ?_).lockPopulated _
          · exact hknows hawake
          · exact fun _ _ hu => hu
  | @unheard c hnone =>
      have hsame : φ t = ψ := by
        cases c
        cases hφ : φ t <;> simp [step, hφ] at hψ
        exact hψ
      rwa [← hsame, Function.update_eq_self]
  | @signal c u hasleep =>
      cases c
      cases hφ : φ t with
      | populated x =>
          have hflag := h.knows t
          rw [hφ] at hflag
          obtain rfl : Phase.populated x = ψ := by simpa [step, hφ] using hψ
          rw [← hφ, Function.update_eq_self]
          exact h.sleep hflag _
      | out | seen | waiting | holding x | linked x | set x v => simp [step, hφ] at hψ
  | broadcast => cases hψ
  | @load x =>
      cases x with
      | isPopulatedFlag =>
          obtain ⟨hφ, rfl⟩ : φ t = .out ∧
              (bif s.memory.isPopulatedFlag then Phase.seen else .out) = ψ := by
            simpa [step, machine, Memory.load] using hψ
          cases hflag : s.memory.isPopulatedFlag with
          | true =>
              exact h.look (fun _ => rfl) rfl (by rw [hφ]; rfl) (by simp [hφ]) hflag
                fun _ _ hu => hu
          | false =>
              rw [cond_false, ← hφ, Function.update_eq_self]
              exact h
      | resultReceiver x =>
          by_cases hφ : φ t = .holding x
          · obtain rfl : (bif s.memory.isLinked x then Phase.linked x else .holding x) = ψ := by
              simpa [step, hφ, machine, Memory.load] using hψ
            cases hlinked : s.memory.isLinked x with
            | true =>
                refine h.look (fun _ => rfl) rfl (by rw [hφ]; rfl) (by simp [hφ]) ?_
                  fun _ _ hu => hu
                -- Who had populated the receiver from this holder would hold its lock.
                rintro p hp rfl
                obtain ⟨u, hu⟩ := h.unlinked p hp hlinked
                obtain rfl : u = t := h.eq_of_holder (by rw [hφ]; rfl) (by rw [hu]; rfl)
                rw [hφ] at hu
                cases hu
            | false =>
                rw [cond_false, ← hφ, Function.update_eq_self]
                exact h
          · have hsame : φ t = .out ∧ .out = ψ := by simpa [step, hφ] using hψ
            rwa [← hsame.2, ← hsame.1, Function.update_eq_self]
  | @store x =>
      cases x with
      | isPopulatedFlag p =>
          obtain ⟨hφ, rfl⟩ : φ t = (match p.value with
              | none => .linked p.holder
              | some v => .set p.holder v) ∧ .populated p.holder = ψ := by simpa [step] using hψ
          exact h.storePopulated hφ
      | value x v =>
          obtain ⟨hφ, rfl⟩ : φ t = .linked x ∧ .set x v = ψ := by simpa [step] using hψ
          exact h.storeValue hφ (halike x v rfl)
      | resultReceiver x =>
          obtain ⟨hφ, rfl⟩ : φ t = .populated x ∧ .holding x = ψ := by simpa [step] using hψ
          exact h.unlink hφ
  | @ask q a m hreply =>
      obtain ⟨hφ, rfl⟩ : φ t = .seen ∧ .out = ψ := by simpa [step] using hψ
      obtain rfl := Option.some.inj hreply
      exact h.getCurrentValue hφ
  | spawn => cases hψ

/-- No result is early, in any run in which no wait ends by itself before the receiver is
populated and no two holders are set to different values. -/
theorem notEarly_of_undisturbed {value : V} {s : State (names τ η V) (Memory τ η V)}
    (h : (((machine τ η V).system (start τ η value)).restrict Undisturbed).Reachable s) :
    NotEarly s.shared.memory := by
  have hinv : ∃ φ, (protocol τ η V).Obeys φ s ∧ Inv φ s.shared := by
    apply Protocol.invariant obeyed _ (inv_start value) _ h
    · exact fun t => rfl
    · intro φ s l φ' shared hobeys hinv hC hmoves
      cases hmoves with
      | @act t c o r _ ψ hhead hexec htrans hspawn =>
          rw [Protocol.births_eq fun _ _ => rfl]
          apply inv_of_effect hinv (Machine.effect_of_exec hexec) htrans
          rintro x v rfl
          apply hC v
          cases hprog : s.prog t with
          | done a => simp [hprog, Prog.head] at hhead
          | op o k =>
              obtain rfl : o = .store (.value x v) := by simpa [hprog, Prog.head] using hhead
              rfl
      | silent => exact hinv
      | @spurious t c =>
          cases c
          exact hinv.sleep hC _
      | @enter t c m p u hdone hentry =>
          rw [show (protocol τ η V).enter t c (φ t) = φ t from rfl, Function.update_eq_self]
          obtain ⟨rfl, -⟩ := Prod.ext_iff.mp (Option.some.inj hentry)
          exact hinv.enter t
  obtain ⟨φ, -, hφ⟩ := hinv
  exact hφ.record.notEarly

instance [DecidableEq V] (s : State (names τ η V) (Memory τ η V)) :
    (l : Label (names τ η V)) → Decidable (Undisturbed s l)
  | .spurious _ => inferInstanceAs (Decidable (_ = true))
  | .step t _ => inferInstanceAs (Decidable (∀ v ∈ aboutToSet (s.prog t), _))
  | .enter _ _ => .isTrue trivial

/-- A producer waits, a consumer sets its holder, and the producer gets the value. -/
theorem notEarly_of_wait :
    ∃ m : Memory (Fin 2) Unit Nat, m.returned 0 = some (7, [⟨(), some 7⟩]) ∧ NotEarly m := by
  obtain ⟨s, hs, hreturned⟩ := (machine (Fin 2) Unit Nat).exists_of_follow (start _ _ 0)
    Undisturbed (fun s => s.shared.memory.returned 0 = some (7, [⟨(), some 7⟩]))
    ([.enter 0 .getValue] ++ List.replicate 4 (.step 0 .go) ++ [.enter 1 (.setValue () 7)] ++
      List.replicate 6 (.step 1 .go) ++ [.step 1 (.wake 0)] ++ List.replicate 1 (.step 1 .go) ++
      List.replicate 2 (.step 0 .go) ++ [.step 0 (.answer 0)])
    (by decide)
  exact ⟨s.shared.memory, hreturned, notEarly_of_undisturbed hs⟩

/-- A wait that ends by itself: the value is the one the receiver was constructed with. -/
theorem early_of_spurious :
    ∃ s : State (names Unit Unit Nat) (Memory Unit Unit Nat),
      ((machine Unit Unit Nat).system (start Unit Unit 0)).Reachable s ∧
        ¬ NotEarly s.shared.memory := by
  obtain ⟨s, hs, hreturned⟩ := (machine Unit Unit Nat).exists_of_follow (start _ _ 0)
    (fun _ _ => True) (fun s => s.shared.memory.returned () = some (0, []))
    ([.enter () .getValue] ++ List.replicate 4 (.step () .go) ++ [.spurious ()] ++
      List.replicate 2 (.step () .go) ++ [.step () (.answer 0)])
    (by decide)
  exact ⟨s, hs.of_restrict, fun h => h.populated () 0 [] hreturned rfl⟩

/-- Two holders that are set to different values: the second has stored its value, and not
populated the receiver yet, when the producer gets it. -/
theorem other_value_of_two_holders :
    ∃ s : State (names (Fin 3) (Fin 2) Nat) (Memory (Fin 3) (Fin 2) Nat),
      ((machine (Fin 3) (Fin 2) Nat).system (start (Fin 3) (Fin 2) 0)).Reachable s ∧
        ¬ NotEarly s.shared.memory := by
  obtain ⟨s, hs, hreturned⟩ := (machine (Fin 3) (Fin 2) Nat).exists_of_follow (start _ _ 0)
    (fun _ _ => True) (fun s => s.shared.memory.returned 0 = some (6, [⟨0, some 5⟩]))
    ([.enter 1 (.setValue 0 5)] ++ List.replicate 10 (.step 1 .go) ++
      [.enter 2 (.setValue 1 6)] ++ List.replicate 4 (.step 2 .go) ++
      [.enter 0 .getValue, .step 0 .go, .step 0 (.answer 0)])
    (by decide)
  refine ⟨s, hs.of_restrict, fun h => ?_⟩
  exact absurd (h.value 0 6 _ hreturned ⟨0, some 5⟩ (List.mem_singleton.mpr rfl) 5 rfl) (by decide)

end ResultReceiver

end HPQueue

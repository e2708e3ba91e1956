import LongestMatch.Recorded
import LongestMatch.Proofs.Parse.Step

namespace LongestMatch

variable {ε σ τ α β α' β' : Type}

/-- From the state `x` the computation succeeds with a value and a state of the first kind, or it
fails with a failure and a state of the second kind. -/
def Leaves (work : EStateM ε σ α) (x : σ) (done : α → σ → Prop) (failed : ε → σ → Prop) : Prop :=
  match work x with
  | .ok a y => done a y
  | .error e y => failed e y

namespace Leaves

variable {work : EStateM ε σ α} {next : α → EStateM ε σ β} {x y : σ} {done done' : α → σ → Prop}
  {then_ : β → σ → Prop} {failed : ε → σ → Prop} {a : α} {e : ε}

theorem pure (holds : done a x) : Leaves (pure a) x done failed := holds

theorem of_ok (result : work x = .ok a y) (holds : done a y) : Leaves work x done failed := by
  rw [Leaves, result]
  exact holds

theorem of_error (result : work x = .error e y) (holds : failed e y) : Leaves work x done failed := by
  rw [Leaves, result]
  exact holds

theorem done_of_ok (leaves : Leaves work x done failed) (result : work x = .ok a y) : done a y := by
  rwa [Leaves, result] at leaves

theorem failed_of_error (leaves : Leaves work x done failed) (result : work x = .error e y) :
    failed e y := by
  rwa [Leaves, result] at leaves

theorem mono (leaves : Leaves work x done failed) (weaker : ∀ a y, done a y → done' a y) :
    Leaves work x done' failed := by
  cases result : work x with
  | ok a y => exact of_ok result (weaker a y (leaves.done_of_ok result))
  | error e y => exact of_error result (leaves.failed_of_error result)

theorem bind (first : Leaves work x done failed)
    (rest : ∀ a y, done a y → Leaves (next a) y then_ failed) :
    Leaves (work >>= next) x then_ failed := by
  cases result : work x with
  | ok a y =>
      rw [Leaves, Parse.bind_of_ok result]
      exact rest a y (first.done_of_ok result)
  | error e y => exact of_error (Parse.bind_of_error result) (first.failed_of_error result)

theorem via {focus : σ → τ × (τ → σ)} {work : Recorded τ α} {x : Logged σ}
    {done : α → Logged σ → Prop} {failed : Failure → Logged σ → Prop}
    (inner : Leaves work ⟨(focus x.state).1, x.log⟩
      (fun a y => done a ⟨(focus x.state).2 y.state, y.log⟩)
      fun e y => failed e ⟨(focus x.state).2 y.state, y.log⟩) :
    Leaves (Recorded.via focus work) x done failed := by
  unfold Leaves Recorded.via at *
  dsimp only
  generalize work _ = result at *
  cases result with
  | ok a y => exact inner
  | error e y => exact inner

end Leaves

/-- Two outcomes that are alike: the same kind of values, or the same failure, and states that belong
together. Where the failure of the first one is excused, the second one may be any. -/
inductive Matched (together : σ → τ → Prop) (excused : ε → Prop) (same : α → β → Prop) :
    EStateM.Result ε σ α → EStateM.Result ε τ β → Prop
  | ok {a b x y} : same a b → together x y → Matched together excused same (.ok a x) (.ok b y)
  | error {e x y} : together x y → Matched together excused same (.error e x) (.error e y)
  | excused {e x result} : excused e → Matched together excused same (.error e x) result

def Lockstep (together : σ → τ → Prop) (excused : ε → Prop) (same : α → β → Prop)
    (work : EStateM ε σ α) (work' : EStateM ε τ β) : Prop :=
  ∀ x y, together x y → Matched together excused same (work x) (work' y)

namespace Matched

variable {together : σ → τ → Prop} {excused : ε → Prop} {same : α → β → Prop}
  {result : EStateM.Result ε τ β}

theorem exists_ok {a : α} {x : σ} (alike : Matched together excused same (.ok a x) result) :
    ∃ b y, result = .ok b y ∧ same a b ∧ together x y := by
  cases alike with
  | ok equal states => exact ⟨_, _, rfl, equal, states⟩

theorem exists_error {e : ε} {x : σ} (alike : Matched together excused same (.error e x) result)
    (serious : ¬ excused e) : ∃ y, result = .error e y ∧ together x y := by
  cases alike with
  | error states => exact ⟨_, rfl, states⟩
  | excused fine => exact (serious fine).elim

end Matched

namespace Lockstep

variable {together : σ → τ → Prop} {excused : ε → Prop} {same : α → β → Prop} {same' : α' → β' → Prop}
  {work : EStateM ε σ α} {work' : EStateM ε τ β} {next : α → EStateM ε σ α'} {next' : β → EStateM ε τ β'}

theorem pure {a : α} {b : β} (equal : same a b) :
    Lockstep together excused same (pure a) (pure b) := fun _ _ states => .ok equal states

theorem modify {f : σ → σ} {f' : τ → τ} (keeps : ∀ x y, together x y → together (f x) (f' y)) :
    Lockstep together excused (fun _ _ => True) (modify f) (modify f') :=
  fun x y states => .ok trivial (keeps x y states)

theorem bind (first : Lockstep together excused same work work')
    (rest : ∀ a b, same a b → Lockstep together excused same' (next a) (next' b)) :
    Lockstep together excused same' (work >>= next) (work' >>= next') := by
  intro x y states
  show Matched _ _ _ (EStateM.bind work next x) (EStateM.bind work' next' y)
  have first := first x y states
  rw [EStateM.bind, EStateM.bind]
  generalize work x = result, work' y = result' at first
  cases first with
  | ok equal states => exact rest _ _ equal _ _ states
  | error states => exact .error states
  | excused fine => exact .excused fine

end Lockstep

def Failure.IsFault : Failure → Prop
  | error _ => False
  | fault _ => True

/-- The second computation does on the image of a state what the first one does on the state, up to
the log and unless the first one breaks off with a fault. -/
def Recorded.Echoes (image : σ → τ) (same : α → β → Prop) (work : Recorded σ α)
    (work' : Recorded τ β) : Prop :=
  Lockstep (fun x y => y.state = image x.state) Failure.IsFault same work work'

namespace Recorded.Echoes

variable {image : σ → τ} {same : α → β → Prop} {same' : α' → β' → Prop} {work : Recorded σ α}
  {work' : Recorded τ β} {next : α → Recorded σ α'} {next' : β → Recorded τ β'}

theorem pure {a : α} {b : β} (equal : same a b) : Echoes image same (pure a) (pure b) :=
  Lockstep.pure equal

theorem bind (first : Echoes image same work work')
    (rest : ∀ a b, same a b → Echoes image same' (next a) (next' b)) :
    Echoes image same' (work >>= next) (work' >>= next') := Lockstep.bind first rest

theorem fail (e : Error) : Echoes image same (fail e) (fail e) := fun _ _ states => .error states

theorem fail_bind (e : Error) (next : α → Recorded σ α') (next' : β → Recorded τ β') :
    Echoes image same' (Recorded.fail e >>= next) (Recorded.fail e >>= next') :=
  fun _ _ states => .error states

theorem fault (f : Fault) : Echoes image same (fault f) work' := fun _ _ _ => .excused trivial

theorem record (e e' : Event) : Echoes image (fun _ _ => True) (record e) (record e') :=
  fun _ _ states => .ok trivial states

theorem current : Echoes image (fun a b => b = image a) current current :=
  fun _ _ states => .ok states states

theorem change {f : σ → σ} {f' : τ → τ} (commutes : ∀ s, f' (image s) = image (f s)) :
    Echoes image (fun _ _ => True) (change f) (change f') := by
  rintro x ⟨_, log⟩ rfl
  exact .ok trivial (commutes x.state)

theorem via {σ' τ' : Type} {image' : σ' → τ'} {work : Recorded σ' α} {work' : Recorded τ' β}
    {focus : σ → σ' × (σ' → σ)} {focus' : τ → τ' × (τ' → τ)}
    (there : ∀ s, (focus' (image s)).1 = image' (focus s).1)
    (back : ∀ s part, (focus' (image s)).2 (image' part) = image ((focus s).2 part))
    (inner : Echoes image' same work work') :
    Echoes image same (via focus work) (via focus' work') := by
  rintro x ⟨_, log⟩ rfl
  have inner := inner ⟨(focus x.state).1, x.log⟩ ⟨(focus' (image x.state)).1, log⟩ (there x.state)
  unfold Recorded.via
  dsimp only
  generalize work _ = result, work' _ = result' at inner
  cases inner with
  | ok equal states => exact .ok equal ((congrArg _ states).trans (back x.state _))
  | error states => exact .error ((congrArg _ states).trans (back x.state _))
  | excused fine => exact .excused fine

end Recorded.Echoes

end LongestMatch

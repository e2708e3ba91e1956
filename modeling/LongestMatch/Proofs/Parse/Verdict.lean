import LongestMatch.Proofs.Parse.Derivation
import LongestMatch.Proofs.Parse.Table

namespace LongestMatch.Parse

variable {S V ε σ : Type} [Alphabet S] {t : Table S}

def Client.reported (c : Client S V ε σ) : Client S V ε (σ × List Diagnostic) where
  blank := c.blank
  next := fun (y, reports) =>
    match c.next y with
    | .ok token y => .ok token (y, reports)
    | .error e y => .error e (y, reports)
  reduce production values := fun (y, reports) =>
    match c.reduce production values y with
    | .ok value y => .ok value (y, reports)
    | .error e y => .error e (y, reports)
  report diagnostic := Prod.map (c.report diagnostic) (· ++ [diagnostic])
  observe move := Prod.map (c.observe move) id

omit [Alphabet S] in
theorem Client.shadows_reported (c : Client S V ε σ) : c.Shadows c.reported where
  blank := rfl
  next := by
    rintro _ ⟨x, reports⟩ rfl
    unfold Client.reported
    dsimp only
    cases c.next x with
    | ok token y => exact .ok rfl rfl
    | error e y => exact .error rfl
  reduce p values := by
    rintro _ ⟨x, reports⟩ rfl
    rw [List.map_id]
    unfold Client.reported
    dsimp only
    cases c.reduce p values x with
    | ok value y => exact .ok rfl rfl
    | error e y => exact .error rfl
  report _ := by
    rintro _ w rfl
    rfl
  observe _ := by
    rintro _ w rfl
    rfl

structure Client.Tells (c : Client S V ε σ) (calls : σ → List (Call V))
    (reports : σ → List Diagnostic) : Prop where
  next : ∀ {y token z}, c.next y = .ok token z → calls z = calls y ∧ reports z = reports y
  reduce : ∀ {p values y value z}, c.reduce p values y = .ok value z →
    calls z = calls y ++ [⟨p, values, value⟩] ∧ reports z = reports y
  report : ∀ d y, calls (c.report d y) = calls y ∧ reports (c.report d y) = reports y ++ [d]
  observe : ∀ move y, calls (c.observe move y) = calls y ∧ reports (c.observe move y) = reports y

omit [Alphabet S] in
theorem Client.tells_reported (c : Client S V ε σ) :
    c.recorded.reported.Tells (fun w => w.1.2) Prod.snd where
  next {y token z} next := by
    unfold Client.reported Client.recorded at next
    grind
  reduce {p values y value z} combined := by
    unfold Client.reported Client.recorded at combined
    grind
  report _ _ := ⟨rfl, rfl⟩
  observe _ _ := ⟨rfl, rfl⟩

/-- No call has been for production 0 yet, and the parser keeps the diagnostics that it has told, of
which there is one if it is recovering. -/
structure Machine.Told (m : Machine S V) (calls : List (Call V)) (reports : List Diagnostic) :
    Prop where
  stack : m.stack ≠ []
  pending : ∀ call ∈ calls, call.production ≠ 0
  kept : m.diagnostics = reports
  genuine : .unfinished ∉ reports
  recovering : m.recovering → reports ≠ []

inductive Verdict.Told : Verdict V ε → List (Call V) → List Diagnostic → Prop
  | accepted {calls : List (Call V)} {values : List V} {value : V}
      (first : ∀ call ∈ calls, call.production ≠ 0) :
      Told (.accepted value) (calls ++ [⟨0, values, value⟩]) []
  | rejected {calls : List (Call V)} {reports : List Diagnostic} (some : reports ≠ [])
      (genuine : .unfinished ∉ reports) : Told (.rejected reports) calls reports

def Progress.Told : Progress S V ε → List (Call V) → List Diagnostic → Prop
  | running m => m.Told
  | ended verdict => verdict.Told

variable {c : Client S V ε σ} {m : Machine S V} {y z : σ} {calls : List (Call V)}
  {reports : List Diagnostic}

omit [Alphabet S] in
theorem Machine.told_rejection (same : m.diagnostics = reports) (some : reports ≠ [])
    (genuine : .unfinished ∉ reports) : (m.rejection : Verdict V ε).Told calls reports := by
  rw [Machine.rejection, same, if_neg (by simpa using some)]
  exact .rejected some genuine

namespace Client.Tells

variable {seen : σ → List (Call V)} {heard : σ → List Diagnostic}

omit [Alphabet S] in
theorem select (tells : c.Tells seen heard) (told : m.Told (seen y) (heard y)) :
    Leaves (m.select c) y (fun result z => result.2.Told (seen z) (heard z)) fun _ _ => True := by
  cases selected : m.select c y with
  | error e z => exact .of_error selected trivial
  | ok result z =>
      refine .of_ok selected ?_
      obtain ⟨_, same, rfl⟩ | ⟨_, _, same, rfl⟩ | ⟨_, _, same, next⟩ := Machine.select_cases selected
      · rw [same]
        exact ⟨told.stack, told.pending, told.kept, told.genuine, told.recovering⟩
      · rw [same]
        exact ⟨told.stack, told.pending, told.kept, told.genuine, told.recovering⟩
      · obtain ⟨calls, reports⟩ := tells.next next
        rwa [same, calls, reports]

omit [Alphabet S] in
theorem diagnose (tells : c.Tells seen heard) (told : m.Told (seen y) (heard y)) {d : Diagnostic}
    (genuine : d ≠ .unfinished) :
    Leaves (m.diagnose c d) y
      (fun m' z => m' = { m with diagnostics := m.diagnostics ++ [d] } ∧ heard z ≠ [] ∧
        m'.Told (seen z) (heard z)) fun _ _ => True := by
  refine .of_ok rfl ⟨rfl, ?_⟩
  obtain ⟨calls, reports⟩ := tells.report d y
  have more : heard (c.report d y) ≠ [] := by simp [reports]
  refine ⟨more, told.stack, calls ▸ told.pending, by rw [reports, told.kept], ?_, fun _ => more⟩
  rw [reports, List.mem_append, List.mem_singleton]
  exact not_or.2 ⟨told.genuine, genuine.symm⟩

omit [Alphabet S] in
theorem observed (tells : c.Tells seen heard) (move : Move) (y : σ) :
    Leaves (modify (c.observe move) : EStateM ε σ Unit) y
      (fun _ z => seen z = seen y ∧ heard z = heard y) fun _ _ => True :=
  .of_ok rfl (tells.observe move y)

omit [Alphabet S] in
theorem combined (tells : c.Tells seen heard) (p : Nat) (values : List V) (y : σ) :
    Leaves (c.reduce p values) y
      (fun value z => seen z = seen y ++ [⟨p, values, value⟩] ∧ heard z = heard y)
      fun _ _ => True := by
  cases result : c.reduce p values y with
  | ok value z => exact .of_ok result (tells.reduce result)
  | error e z => exact .of_error result trivial

theorem told_settle (told : m.Told calls reports) (symbol : S) : (m.settle symbol).Told calls reports := by
  unfold Machine.settle
  split
  · exact told
  · exact ⟨told.stack, told.pending, told.kept, told.genuine, nofun⟩

theorem reduce_machine (tells : c.Tells seen heard) (told : m.Told (seen y) (heard y)) {p : Nat}
    (known : p < t.heads.size) (sized : p < t.lengths.size) (s : Nat) (token : Token S V) :
    Leaves (m.reduce t c s p token) y (fun progress z => progress.Told (seen z) (heard z))
      fun _ _ => True := by
  rw [Machine.reduce, Array.getElem?_eq_getElem known, Array.getElem?_eq_getElem sized]
  dsimp only
  cases rest : m.stack.drop t.lengths[p] with
  | nil =>
      refine (tells.diagnose told (d := .overdrawn p _ _) Diagnostic.noConfusion).bind ?_
      rintro m' z ⟨_, some, told⟩
      exact .pure (Machine.told_rejection told.kept some told.genuine)
  | cons entry stack =>
      refine (tells.observed _ y).bind ?_
      rintro ⟨⟩ y' ⟨calls, reports⟩
      refine (tells.combined p _ y').bind ?_
      rintro value z ⟨calls', reports'⟩
      rw [calls] at calls'
      rw [reports] at reports'
      split
      · rename_i first
        subst first
        refine .pure ?_
        show Verdict.Told _ _ _
        split
        · rename_i none
          rw [calls', reports', ← told.kept, List.isEmpty_iff.1 none]
          exact .accepted told.pending
        · rename_i some
          rw [List.isEmpty_iff, told.kept, ← reports'] at some
          exact Machine.told_rejection (told.kept.trans reports'.symm) some
            (reports' ▸ told.genuine)
      · rename_i other
        refine .pure ⟨List.cons_ne_nil _ _, fun call made => ?_, told.kept.trans reports'.symm,
          reports' ▸ told.genuine, fun recovering => reports' ▸ told.recovering recovering⟩
        rw [calls', List.mem_append, List.mem_singleton] at made
        rcases made with made | rfl
        · exact told.pending call made
        · exact other

theorem recover_machine (tells : c.Tells seen heard) (told : m.Told (seen y) (heard y)) (s : Nat)
    (token : Token S V) :
    Leaves (m.recover t c s token) y (fun progress z => progress.Told (seen z) (heard z))
      fun _ _ => True := by
  rw [Machine.recover]
  split
  · rename_i recovering
    split
    · exact .pure (Machine.told_rejection told.kept (told.recovering recovering) told.genuine)
    · refine (tells.observed _ y).bind ?_
      rintro ⟨⟩ z ⟨calls, reports⟩
      refine .pure ?_
      show m.Told _ _
      rwa [calls, reports]
  · refine (tells.diagnose told (d := .unexpected _ _) Diagnostic.noConfusion).bind ?_
    rintro m' z ⟨_, some, told⟩
    have rejected : (m'.rejection : Verdict V ε).Told (seen z) (heard z) :=
      Machine.told_rejection told.kept some told.genuine
    split
    · exact .pure rejected
    · split
      · exact .pure rejected
      · exact .pure ⟨‹_›, told.pending, told.kept, told.genuine, fun _ => some⟩

theorem step (tells : c.Tells seen heard) (complete : t.Complete) (told : m.Told (seen y) (heard y)) :
    Leaves (m.step t c) y (fun progress z => progress.Told (seen z) (heard z)) fun _ _ => True := by
  rw [Machine.step]
  split
  · exact (told.stack ‹_›).elim
  · refine (tells.select told).bind ?_
    rintro ⟨token, m⟩ z told
    dsimp only at told ⊢
    split
    · refine (tells.observed _ z).bind ?_
      rintro ⟨⟩ w ⟨calls, reports⟩
      refine .pure ?_
      have told := told_settle told token.symbol
      rw [← calls, ← reports] at told
      exact ⟨List.cons_ne_nil _ _, told.pending, told.kept, told.genuine, told.recovering⟩
    · rename_i p action
      have known : p < t.heads.size := complete.inRange _ _ _ action
      exact tells.reduce_machine (told_settle told token.symbol) known
        (known.trans_eq complete.lengths.symm) _ token
    · exact tells.recover_machine told _ token

theorem run (tells : c.Tells seen heard) (complete : t.Complete) {bound : Nat} {verdict : Verdict V ε}
    (told : m.Told (seen y) (heard y)) (ended : run t c bound m y = some (verdict, z)) :
    (∃ failure, verdict = .aborted failure) ∨ verdict.Told (seen z) (heard z) := by
  induction bound generalizing m y with
  | zero => cases ended
  | succ bound ih =>
      have moved := tells.step complete told
      rw [Parse.run] at ended
      split at ended
      · rename_i result
        exact ih (moved.done_of_ok result) ended
      · rename_i result
        cases ended
        exact .inr (moved.done_of_ok result)
      · cases ended
        exact .inl ⟨_, rfl⟩

end Client.Tells

omit [Alphabet S] in
theorem Verdict.Told.accepted_iff {verdict : Verdict V ε} (told : verdict.Told calls reports)
    (value : V) : verdict = .accepted value ↔ (∃ values, ⟨0, values, value⟩ ∈ calls) ∧ reports = [] := by
  cases told with
  | @accepted calls values value' first =>
      constructor
      · rintro ⟨⟩
        exact ⟨⟨values, by simp⟩, rfl⟩
      · rintro ⟨⟨values', made⟩, _⟩
        rcases List.mem_append.1 made with earlier | last
        · exact (first _ earlier rfl).elim
        · cases List.mem_singleton.1 last
          rfl
  | rejected some =>
      exact ⟨nofun, fun both => (some both.2).elim⟩

/-- Whatever the client is, as long as it does not fail: a run accepts the value of a reduction by
production 0 if there was one and no diagnostic was told, and otherwise is rejected with the diagnostics
told, in order, of which there is one. -/
theorem parse_told {rows : List (List (S × String))} {heads : List S} {lengths : List Nat}
    (built : Table.ofRows rows heads lengths = .ok t) (c : Client S V ε σ) (bound : Nat) {x : σ}
    {verdict : Verdict V ε} (ended : parse t c bound x = some (verdict, z))
    (done : ∀ failure, verdict ≠ .aborted failure) :
    ∃ calls reports,
      parse t c.recorded.reported bound ((x, []), []) = some (verdict, ((z, calls), reports)) ∧
      (∀ value, verdict = .accepted value ↔ (∃ values, ⟨0, values, value⟩ ∈ calls) ∧ reports = []) ∧
      ((∀ value, verdict ≠ .accepted value) → verdict = .rejected reports ∧ reports ≠ []) ∧
      .unfinished ∉ reports := by
  obtain ⟨calls, recorded⟩ := exists_parse_recorded ended
  obtain ⟨reports, reported⟩ := c.recorded.shadows_reported.parse recorded []
  refine ⟨calls, reports, reported, ?_⟩
  have fresh : (Machine.initial c.blank : Machine S V).Told [] [] :=
    ⟨List.cons_ne_nil _ _, List.forall_mem_nil _, rfl, List.not_mem_nil, nofun⟩
  rcases c.tells_reported.run (Table.complete_of_ofRows built) fresh reported with
    ⟨failure, aborted⟩ | told
  · exact (done failure aborted).elim
  · refine ⟨told.accepted_iff, fun other => ?_, ?_⟩
    · cases told with
      | accepted => exact (other _ rfl).elim
      | rejected some => exact ⟨rfl, some⟩
    · cases told with
      | accepted => exact List.not_mem_nil
      | rejected _ genuine => exact genuine

theorem parse_told_missing :
    parse sumTable Client.sums 20 [some 7, none, none, some 5] =
      some (.rejected [.unexpected "+" "+"], []) ∧
    ∃ calls reports, parse sumTable Client.sums.recorded.reported 20
        (([some 7, none, none, some 5], []), []) =
      some (.rejected [.unexpected "+" "+"], (([], calls), reports)) ∧
      reports = [.unexpected "+" "+"] ∧ ⟨0, [5], 5⟩ ∈ calls := by
  have built : Table.ofRows [[("n", "s2"), ("error", "s3"), ("E", "s1")], [("$", "r0"), ("+", "s4")],
      [("$", "r2"), ("+", "r2")], [("$", "r3"), ("+", "r3")], [("n", "s5")],
      [("$", "r1"), ("+", "r1")]] ["S", "E", "E", "E"] [1, 3, 1, 1] = .ok sumTable := rfl
  have ended : parse sumTable Client.sums 20 [some 7, none, none, some 5] =
      some (.rejected [.unexpected "+" "+"], []) := rfl
  obtain ⟨calls, reports, told, _, rejected, _⟩ := parse_told built Client.sums 20 ended nofun
  have made : parse sumTable Client.sums.recorded.reported 20
      (([some 7, none, none, some 5], []), []) = some (.rejected [.unexpected "+" "+"],
        (([], [⟨2, [7], 7⟩, ⟨3, [0], 0⟩, ⟨1, [0, 0, 5], 5⟩, ⟨0, [5], 5⟩]), [.unexpected "+" "+"])) := rfl
  refine ⟨ended, calls, reports, told, ?_, ?_⟩
  · cases (rejected nofun).1
    rfl
  · cases told.symm.trans made
    simp

end LongestMatch.Parse

import LineScript.Proofs.Session.Reachable
import LineScript.Proofs.Table
import LineScript.Proofs.Tree.Flattening
import LineScript.Proofs.Tree.Semantics

/-! # The flat machine runs trees

Run line by line, a flattened forest does what the forest does by its structure: the same result,
the same variables, output, events and counters, and the same functions, kept as lines here and as
forests there. The proof is by induction on the calls that are left, and for each number of them on
the trees; the levels that the nesting limit leaves open are arbitrary throughout.
-/

namespace LineScript

open Program

namespace Grove

/-- The machine that keeps the lines of the forests for functions. -/
def flat (s : Grove) : Machine := { s.machine with functions := s.bodies.map Forest.lines }

/-- So many levels and so many calls are enough to reach the limits. -/
structure Within (g : Guard) (room calls : Nat) (s : Grove) : Prop where
  nesting : g.maxNesting ≤ s.machine.nesting + room
  depth : g.maxCallDepth ≤ s.machine.depth + calls

end Grove

namespace Walk

open Exec

def flat {α : Type} : EStateM.Result Error Grove α → Exec.Result α
  | .ok a s => .ok a s.flat
  | .error e s => .error e s.flat

variable (g : Guard) (l : Line) (s : Grove)

theorem ofExec_ok {α : Type} {act : Exec α} {a : α} {m : Machine} {s : Grove}
    (h : act s.machine = .ok a m) : ofExec act s = .ok a { s with machine := m } := by
  unfold ofExec
  rw [h]

theorem ofExec_error {α : Type} {act : Exec α} {e : Error} {m : Machine} {s : Grove}
    (h : act s.machine = .error e m) : ofExec act s = .error e { s with machine := m } := by
  unfold ofExec
  rw [h]

theorem start_apply :
    start g l s =
      if s.machine.interrupted then
        .error ⟨.interrupted, some l, []⟩ { s with machine := s.machine.calmed }
      else if g.maxSteps < s.machine.counted.steps then
        .error (.ofLimit .steps l g.maxSteps) { s with machine := s.machine.counted }
      else .ok () { s with machine := s.machine.counted.announced g l } := by
  have ht := tick_apply g l s.machine
  unfold start
  split
  · next hi =>
    rw [if_pos hi] at ht
    exact ofExec_error (bind_error ht)
  · next hi =>
    rw [if_neg hi] at ht
    split
    · next hm => exact ofExec_error (bind_error (ht.trans (if_pos hm)))
    · next hm => exact ofExec_ok (bind_ok (ht.trans (if_neg hm)))

theorem decide_apply (c : Condition) :
    decide c s = .ok (c.holds s.machine.vars)
      { s with machine := (s.machine.weighed c).report (.branched (c.holds s.machine.vars)) } := by
  cases c <;> rfl

theorem deeper_apply (act : Walk Unit) :
    deeper g l act s =
      if g.maxNesting ≤ s.machine.nesting then .error (.ofLimit .nesting l g.maxNesting) s
      else between Machine.enterBlock Machine.leaveBlock act s := by
  unfold deeper
  rw [bind_ok (get_apply s)]
  split <;> rfl

end Walk

namespace Exec

/-- Line by line, the text `p` does what `act` does, whatever follows it. -/
def Agrees (g : Guard) (room calls : Nat) (act : Walk Unit) (p : Program) : Prop :=
  ∀ s, Grove.Within g room calls s → ∀ rest,
    runFrom g (nested g room) 0 (p ++ rest) s.flat =
      followedBy (Walk.flat (act s)) fun _ => runFrom g (nested g room) 0 rest

section Agreement

variable {g : Guard} {room calls : Nat} {act act' : Walk Unit} {p q : Program} {s s' : Grove}

theorem Agrees.runFrom_eq (h : Agrees g room calls act p) (hs : s.Within g room calls) :
    runFrom g (nested g room) 0 p s.flat = Walk.flat (act s) := by
  have he := h s hs []
  rw [List.append_nil] at he
  rw [he]
  cases act s <;> rfl

theorem Agrees.within (h : Agrees g room calls act p) (hs : s.Within g room calls) {u : Unit}
    (ho : act s = .ok u s') : s'.Within g room calls := by
  have he := h.runFrom_eq hs
  have hr := (evolves_counters g).runFrom room p s.flat
  rw [he, ho] at hr
  obtain ⟨hd, hn⟩ := hr
  constructor
  · have : s'.machine.nesting = s.machine.nesting := hn
    rw [this]
    exact hs.nesting
  · have : s'.machine.depth = s.machine.depth := hd
    rw [this]
    exact hs.depth

theorem Agrees.nil : Agrees g room calls (pure ()) [] := by
  intro s hs rest
  rfl

theorem Agrees.append (hp : Agrees g room calls act p) (hq : Agrees g room calls act' q) :
    Agrees g room calls (do act; act') (p ++ q) := by
  intro s hs rest
  rw [List.append_assoc, hp s hs]
  cases ha : act s with
  | error e s' =>
    rw [bind_error ha]
    rfl
  | ok u s' =>
    rw [bind_ok ha]
    exact hq s' (hp.within hs ha) rest

theorem nested_eq_deeper (h : ∀ r, Agrees g r calls act p) (hs : s.Within g room calls)
    (l : Line) : nested g room l p s.flat = Walk.flat (Walk.deeper g l act s) := by
  have hn : s.flat.nesting = s.machine.nesting := rfl
  rw [Walk.deeper_apply]
  cases room with
  | zero =>
    have hz : g.maxNesting ≤ s.machine.nesting := hs.nesting
    rw [nested_zero, if_pos hz]
    rfl
  | succ r =>
    rw [nested_succ, hn]
    split
    · rfl
    · have hs' : Grove.Within g r calls { s with machine := s.machine.enterBlock } := by
        refine ⟨?_, hs.depth⟩
        have := hs.nesting
        change g.maxNesting ≤ s.machine.nesting + 1 + r
        omega
      have he := (h r).runFrom_eq hs'
      rw [show s.flat.enterBlock = Grove.flat { s with machine := s.machine.enterBlock } from rfl,
        he]
      unfold Walk.between
      cases act { s with machine := s.machine.enterBlock } <;> rfl

theorem Agrees.of_statement {c : Command}
    (h : ∀ s, Grove.Within g room calls s → ∀ rest,
      (Action.ofStatement g c (p ++ rest) s.flat).perform (nested g room) c.line (p ++ rest) =
        returning p.length (Walk.flat (act s))) :
    Agrees g room calls (do Walk.start g c.line; act) (c :: p) := by
  intro s hs rest
  have hst := Walk.start_apply g c.line s
  rw [List.cons_append, runFrom_cons]
  unfold Action.ofCommand
  by_cases hi : s.flat.interrupted = true
  · rw [if_pos hi]
    rw [if_pos (show s.machine.interrupted = true from hi)] at hst
    rw [bind_error hst]
    rfl
  · rw [if_neg hi]
    rw [if_neg (show ¬ s.machine.interrupted = true from hi)] at hst
    by_cases hm : g.maxSteps < s.flat.counted.steps
    · rw [if_pos hm]
      rw [if_pos (show g.maxSteps < s.machine.counted.steps from hm)] at hst
      rw [bind_error hst]
      rfl
    · rw [if_neg hm]
      rw [if_neg (show ¬ g.maxSteps < s.machine.counted.steps from hm)] at hst
      have he := h { s with machine := s.machine.counted.announced g c.line }
        ⟨hs.nesting, hs.depth⟩ rest
      rw [bind_ok hst, show s.flat.counted.announced g c.line = Grove.flat
        { s with machine := s.machine.counted.announced g c.line } from rfl, he]
      cases act { s with machine := s.machine.counted.announced g c.line } with
      | error e s' => rfl
      | ok u s' =>
        change runFrom g (nested g room) 0 ((p ++ rest).drop p.length) s'.flat = _
        rw [List.drop_left]
        rfl

end Agreement

end Exec

namespace Program

theorem slice_append_left {p : Program} {stop : Nat} (h : stop ≤ p.length) (start : Nat)
    (q : Program) : slice (p ++ q) start stop = p.slice start stop := by
  unfold slice
  rw [List.take_append_of_le_length h]

theorem slice_left (p q : Program) : slice (p ++ q) 0 p.length = p := by
  unfold slice
  rw [List.take_left, List.drop_zero]

end Program

namespace Action

variable {body : Program} {d : Command} {m : Machine}

theorem ofBranch_block (hb : SelfContained body) (hd : d.statement.closes = some .conditional)
    (l : Line) (condition : Condition) (rest : Program) :
    ofBranch l condition (body ++ [d] ++ rest) m = branching condition body body.length m := by
  unfold ofBranch
  rw [List.append_assoc, List.singleton_append, hb.closer?_append_cons hd]
  dsimp only
  rw [List.take_left]

theorem ofSelection_block (hb : SelfContained body) (hd : d.statement.closes = some .selection)
    (l : Line) (name : Text) (rest : Program) :
    ofSelection l name (body ++ [d] ++ rest) m = selecting name body body.length m := by
  unfold ofSelection
  rw [List.append_assoc, List.singleton_append, hb.closer?_append_cons hd]
  dsimp only
  rw [List.take_left]

theorem ofDefinition_block (hb : SelfContained body) (hd : d.statement.closes = some .function)
    (l : Line) (name : Text) (rest : Program) :
    ofDefinition l name (body ++ [d] ++ rest) m =
      .pass (body.length + 1) (m.defined name body.lines) := by
  unfold ofDefinition
  rw [List.append_assoc, List.singleton_append, hb.closer?_append_cons hd]
  dsimp only
  rw [List.take_left]

end Action

theorem Arms.runs_eq_map (a : Arms) (g : Guard) (caller : Walk.Caller) :
    a.runs g caller = a.toList.map fun y => (y.1, y.2.run g caller) := by
  cases a with
  | nil => rfl
  | cons label marker body arms =>
    rw [Arms.runs, arms.runs_eq_map]
    rfl

theorem Grove.flat_decided (s : Grove) (c : Condition) :
    (s.flat.weighed c).report (.branched (c.holds s.flat.vars)) =
      Grove.flat { s with
        machine := (s.machine.weighed c).report (.branched (c.holds s.machine.vars)) } := by
  cases c <;> rfl

theorem Machine.nesting_weighed (m : Machine) (c : Condition) :
    (m.weighed c).nesting = m.nesting ∧ (m.weighed c).depth = m.depth := by
  cases c <;> exact ⟨rfl, rfl⟩

theorem Grove.Within.decided {g : Guard} {room calls : Nat} {s : Grove}
    (h : s.Within g room calls) (c : Condition) (e : Event) :
    Grove.Within g room calls { s with machine := (s.machine.weighed c).report e } := by
  obtain ⟨hn, hd⟩ := s.machine.nesting_weighed c
  constructor
  · change g.maxNesting ≤ (s.machine.weighed c).nesting + room
    rw [hn]
    exact h.nesting
  · change g.maxCallDepth ≤ (s.machine.weighed c).depth + calls
    rw [hd]
    exact h.depth

namespace Exec

open Walk

section Constructors

variable {g : Guard} {room calls : Nat} {caller : Caller} {s : Grove}

theorem agrees_conditional {condition : Condition} (header : LineOf (.ifThen condition))
    {yes : Forest} (closer : LineOf (.close .conditional))
    (hy : ∀ r, Agrees g r calls (yes.run g caller) yes.flatten) :
    Agrees g room calls (Tree.run g caller (.conditional condition header yes closer))
      (Tree.flatten (.conditional condition header yes closer)) := by
  obtain ⟨hs, hu⟩ := yes.selfContained_flatten
  rw [Tree.run, Tree.flatten]
  refine Agrees.of_statement (c := header.command) fun s hw rest => ?_
  change (Action.ofBranch header.line condition _ s.flat).perform _ header.line _ = _
  rw [Action.ofBranch_block hs rfl, Action.branching, hu.otherwise?,
    bind_ok (decide_apply s condition), s.flat_decided, List.length_append,
    show condition.holds s.flat.vars = condition.holds s.machine.vars from rfl]
  cases condition.holds s.machine.vars with
  | true =>
    change returning _ (nested g room header.line _ _) = _
    rw [List.append_assoc, slice_left, nested_eq_deeper hy (hw.decided condition _)]
    rfl
  | false => rfl

theorem agrees_alternative {condition : Condition} (header : LineOf (.ifThen condition))
    {yes no : Forest} (divider : LineOf .otherwise) (closer : LineOf (.close .conditional))
    (hy : ∀ r, Agrees g r calls (yes.run g caller) yes.flatten)
    (hn : ∀ r, Agrees g r calls (no.run g caller) no.flatten) :
    Agrees g room calls (Tree.run g caller (.alternative condition header yes divider no closer))
      (Tree.flatten (.alternative condition header yes divider no closer)) := by
  obtain ⟨hsy, huy⟩ := yes.selfContained_flatten
  obtain ⟨hsn, -⟩ := no.selfContained_flatten
  have hs : SelfContained (yes.flatten ++ divider.command :: no.flatten) :=
    hsy.append_marker (show LineOf (.marker none) from divider) hsn
  rw [Tree.run, Tree.flatten]
  refine Agrees.of_statement (c := header.command) fun s hw rest => ?_
  change (Action.ofBranch header.line condition _ s.flat).perform _ header.line _ = _
  have hl : (yes.flatten ++ divider.command :: no.flatten ++ [closer.command]).length =
      (yes.flatten ++ divider.command :: no.flatten).length + 1 := List.length_append
  rw [Action.ofBranch_block hs rfl, Action.branching, otherwise?_append hsy huy rfl,
    bind_ok (decide_apply s condition), s.flat_decided, hl, show condition.holds s.flat.vars =
      condition.holds s.machine.vars from rfl]
  cases condition.holds s.machine.vars with
  | true =>
    change returning _ (nested g room header.line _ _) = _
    rw [List.append_assoc, List.append_assoc, slice_left,
      nested_eq_deeper hy (hw.decided condition _)]
    rfl
  | false =>
    change returning _ (nested g room header.line _ _) = _
    have hsl : slice (yes.flatten ++ divider.command :: no.flatten ++ [closer.command] ++ rest)
        (yes.flatten.length + 1) (yes.flatten ++ divider.command :: no.flatten).length =
          no.flatten := by
      have := slice_append_append (yes.flatten ++ [divider.command]) no.flatten
        ([closer.command] ++ rest)
      simpa using this
    rw [hsl, nested_eq_deeper hn (hw.decided condition _)]
    rfl

theorem agrees_definition {name : Text} (header : LineOf (.define name)) (body : Forest)
    (closer : LineOf (.close .function)) :
    Agrees g room calls (Tree.run g caller (.definition name header body closer))
      (Tree.flatten (.definition name header body closer)) := by
  obtain ⟨hs, -⟩ := body.selfContained_flatten
  rw [Tree.run, Tree.flatten]
  refine Agrees.of_statement (c := header.command) fun s hw rest => ?_
  change (Action.ofDefinition header.line name _ s.flat).perform _ header.line _ = _
  rw [Action.ofDefinition_block hs rfl, List.length_append]
  change EStateM.Result.ok (body.flatten.length + 1) (s.flat.defined name body.lines) =
    .ok (body.flatten.length + 1) (Grove.flat
      { machine := s.machine.report (.defined name body.lines.length),
        bodies := s.bodies.insert name body })
  unfold Grove.flat Machine.defined
  rw [Table.map_insert]
  rfl

theorem choose?_rel {p : Program} {xs : List Arm} {ys : List (Option Text × Forest)}
    (h : List.Forall₂ (Arms.Matches p) xs ys) (label : Text) :
    Option.Rel (Arms.Matches p) (Arm.choose? xs label) (choose? ys label) := by
  have hfind (o : Option Text) :
      Option.Rel (Arms.Matches p) (xs.find? (·.label == o)) (ys.find? (·.1 == o)) := by
    induction h with
    | nil => exact .none
    | @cons x y xs ys hxy _ ih =>
      rw [List.find?_cons, List.find?_cons, hxy.1]
      cases y.1 == o with
      | true => exact .some hxy
      | false => exact ih
  have hor {o₁ o₂ : Option Arm} {o₁' o₂' : Option (Option Text × Forest)}
      (h₁ : Option.Rel (Arms.Matches p) o₁ o₁') (h₂ : Option.Rel (Arms.Matches p) o₂ o₂') :
      Option.Rel (Arms.Matches p) (o₁.or o₂) (o₁'.or o₂') := by
    cases h₁ with
    | some hx => exact .some hx
    | none => exact h₂
  exact hor (hfind _) (hfind _)

theorem choose?_runs (a : Arms) (g : Guard) (caller : Caller) (label : Text) :
    choose? (a.runs g caller) label =
      (choose? a.toList label).map fun y => (y.1, y.2.run g caller) := by
  unfold choose?
  rw [a.runs_eq_map, List.find?_map, List.find?_map, Option.map_or]
  rfl

theorem mem_of_choose? {α : Type} {arms : List (Option Text × α)} {label : Text}
    {y : Option Text × α} (h : choose? arms label = some y) : y ∈ arms := by
  rcases Option.or_eq_some_iff.mp h with h | ⟨-, h⟩
  · exact List.mem_of_find?_eq_some h
  · exact List.mem_of_find?_eq_some h

theorem agrees_selection {name : Text} (header : LineOf (.caseOf name)) (prelude : Forest)
    {arms : Arms} (closer : LineOf (.close .selection))
    (ha : ∀ y ∈ arms.toList, ∀ r, Agrees g r calls (y.2.run g caller) y.2.flatten) :
    Agrees g room calls (Tree.run g caller (.selection name header prelude arms closer))
      (Tree.flatten (.selection name header prelude arms closer)) := by
  have hs : SelfContained (prelude.flatten ++ arms.flatten) :=
    prelude.selfContained_flatten.1.append arms.selfContained_flatten
  rw [Tree.run, Tree.flatten]
  refine Agrees.of_statement (c := header.command) fun s hw rest => ?_
  change (Action.ofSelection header.line name _ s.flat).perform _ header.line _ = _
  have hl : (prelude.flatten ++ arms.flatten ++ [closer.command]).length =
      (prelude.flatten ++ arms.flatten).length + 1 := List.length_append
  have hrel := choose?_rel (Arms.forall₂_arms prelude arms) (s.machine.vars.fetch name).text
  rw [Action.ofSelection_block hs rfl, Action.selecting, bind_ok (get_apply s), hl, choose?_runs,
    show s.flat.vars = s.machine.vars from rfl]
  cases hx : Arm.choose? (Program.arms (prelude.flatten ++ arms.flatten))
      (s.machine.vars.fetch name).text with
  | none =>
    rw [hx] at hrel
    cases hy : choose? arms.toList (s.machine.vars.fetch name).text with
    | none => rfl
    | some y =>
      rw [hy] at hrel
      cases hrel
  | some x =>
    rw [hx] at hrel
    cases hy : choose? arms.toList (s.machine.vars.fetch name).text with
    | none =>
      rw [hy] at hrel
      cases hrel
    | some y =>
      rw [hy] at hrel
      have hm : Arms.Matches (prelude.flatten ++ arms.flatten) x y := by
        cases hrel with
        | some hm => exact hm
      have hstop := (hs.balanced.isCut_of_mem_arms (mem_arms_of_choose? hx)).2.1
      change returning _ (nested g room header.line _ (s.flat.report _)) = _
      rw [List.append_assoc _ [closer.command], slice_append_left hstop, hm.1, hm.2]
      have hw' : Grove.Within g room calls
          { s with machine := s.machine.report (.selected y.1) } := ⟨hw.nesting, hw.depth⟩
      have hd := nested_eq_deeper (ha y (mem_of_choose? hy)) hw' header.line
      exact congrArg (returning _) hd

theorem call_apply_of_le (hw : g.maxCallDepth ≤ s.machine.depth) (l : Line) (name : Text)
    (body : Forest) : Walk.call g calls l name body s =
      .error (.ofLimit .callDepth l g.maxCallDepth) s := by
  cases calls with
  | zero => rfl
  | succ n =>
    rw [Walk.call, bind_ok (get_apply s), if_pos hw]
    rfl

/-- A call does what the action of its line does, if bodies do so with one call fewer. -/
theorem perform_ofCall (hw : s.Within g room calls)
    (ih : ∀ n, calls = n + 1 → ∀ (r : Nat) (f : Forest),
      Agrees g r n (f.run g (Walk.call g n)) f.flatten)
    (l : Line) (name : Text) (rest : Program) :
    (Action.ofCall g l name s.flat).perform (nested g room) l rest =
      returning 0 (Walk.flat (Simple.run (Walk.call g calls) l (.call name) s)) := by
  have hget : s.flat.functions.get? name = (s.bodies.get? name).map Forest.lines :=
    s.bodies.get?_map Forest.lines name
  unfold Action.ofCall
  rw [Simple.run, hget, bind_ok (get_apply s)]
  cases s.bodies.get? name with
  | none => rfl
  | some body =>
    dsimp only [Option.map_some]
    by_cases hd : g.maxCallDepth ≤ s.machine.depth
    · rw [if_pos (show g.maxCallDepth ≤ s.flat.depth from hd), call_apply_of_le hd]
      rfl
    · rw [if_neg (show ¬ g.maxCallDepth ≤ s.flat.depth from hd), body.ofLines_lines]
      obtain ⟨n, rfl⟩ : ∃ n, calls = n + 1 := by
        have := hw.depth
        exact ⟨calls - 1, by omega⟩
      let s' : Grove :=
        { s with machine := (s.machine.report (.called name (s.machine.depth + 1))).enterCall }
      have hw' : s'.Within g room n := by
        refine ⟨hw.nesting, ?_⟩
        have := hw.depth
        change g.maxCallDepth ≤ s.machine.depth + 1 + n
        omega
      have hn := nested_eq_deeper (fun r => ih n rfl r body) hw' l
      rw [Walk.call, bind_ok (get_apply s), if_neg hd]
      change returning 0 (mapMachine Machine.leaveCall (nested g room l body.flatten s'.flat)) =
        returning 0 (Walk.flat (Walk.between Machine.enterCall Machine.leaveCall
          (Walk.deeper g l (body.run g (Walk.call g n))) _))
      rw [hn]
      unfold Walk.between
      cases Walk.deeper g l (body.run g (Walk.call g n)) s' <;> rfl

theorem agrees_simple (st : Simple) (l : LineOf st.statement)
    (ih : ∀ n, calls = n + 1 → ∀ (r : Nat) (f : Forest),
      Agrees g r n (f.run g (Walk.call g n)) f.flatten) :
    Agrees g room calls (Tree.run g (Walk.call g calls) (.simple st l))
      (Tree.flatten (.simple st l)) := by
  rw [Tree.run, Tree.flatten]
  refine Agrees.of_statement (c := l.command) fun s hw rest => ?_
  cases st with
  | assign name value => rfl
  | print e => cases e <;> rfl
  | unrecognized => rfl
  | call name => exact perform_ofCall hw ih l.line name rest

end Constructors

mutual

theorem agrees_tree {g : Guard} {calls : Nat}
    (ih : ∀ n, calls = n + 1 → ∀ (r : Nat) (f : Forest),
      Agrees g r n (f.run g (Walk.call g n)) f.flatten) (t : Tree) (room : Nat) :
    Agrees g room calls (t.run g (Walk.call g calls)) t.flatten := by
  cases t with
  | simple st l => exact agrees_simple st l ih
  | conditional condition header yes closer =>
    exact agrees_conditional header closer (agrees_forest ih yes)
  | alternative condition header yes divider no closer =>
    exact agrees_alternative header divider closer (agrees_forest ih yes) (agrees_forest ih no)
  | selection name header prelude arms closer =>
    exact agrees_selection header prelude closer (agrees_arms ih arms)
  | definition name header body closer => exact agrees_definition header body closer

theorem agrees_forest {g : Guard} {calls : Nat}
    (ih : ∀ n, calls = n + 1 → ∀ (r : Nat) (f : Forest),
      Agrees g r n (f.run g (Walk.call g n)) f.flatten) (f : Forest) (room : Nat) :
    Agrees g room calls (f.run g (Walk.call g calls)) f.flatten := by
  cases f with
  | nil => exact .nil
  | cons t f =>
    rw [Forest.run, Forest.flatten]
    exact (agrees_tree ih t room).append (agrees_forest ih f room)

theorem agrees_arms {g : Guard} {calls : Nat}
    (ih : ∀ n, calls = n + 1 → ∀ (r : Nat) (f : Forest),
      Agrees g r n (f.run g (Walk.call g n)) f.flatten) (a : Arms) :
    ∀ y ∈ a.toList, ∀ r, Agrees g r calls (y.2.run g (Walk.call g calls)) y.2.flatten := by
  cases a with
  | nil => simp [Arms.toList]
  | cons label marker body arms =>
    rw [Arms.toList, List.forall_mem_cons]
    exact ⟨agrees_forest ih body, agrees_arms ih arms⟩

end

/-- At every level and with any number of calls, the lines of a forest do what the forest does. -/
theorem agrees (g : Guard) (calls room : Nat) (f : Forest) :
    Agrees g room calls (f.run g (Walk.call g calls)) f.flatten := by
  induction calls generalizing room f with
  | zero => exact agrees_forest (fun n hn => absurd hn (by omega)) f room
  | succ n ih =>
    refine agrees_forest (fun k hk r f => ?_) f room
    cases hk
    exact ih r f

end Exec

namespace Forest

theorem run_flatten (g : Guard) (f : Forest) (s : Grove) :
    Exec.run g f.flatten s.flat = Walk.flat (f.exec g s) :=
  (Exec.agrees g g.maxCallDepth g.maxNesting f).runFrom_eq
    ⟨Nat.le_add_left _ _, Nat.le_add_left _ _⟩

/--
Flat execution refines structured execution. Under all limits, from every machine whose functions
are flattened forests, running the lines of a forest ends as running the forest by its structure
does: with the same result and, lines here for forests there, the same machine. So it does for a
source that has these lines, in every session whose functions are flattened forests.
-/
theorem flat_execution_refines (g : Guard) (f : Forest) :
    (∀ s : Grove, Exec.run g f.flatten s.flat = Walk.flat (f.exec g s)) ∧
    ∀ (s : Session) (bodies : Table Forest) (source : Text),
      s.functions = bodies.map Forest.lines → Line.split source = f.lines →
      Session.run g s source =
        Session.report (Walk.flat (f.exec g ⟨s.machine g source, bodies⟩)) := by
  refine ⟨f.run_flatten g, fun s bodies source hs hl => ?_⟩
  have hp : Program.ofText source = .ok f.flatten := by
    unfold Program.ofText
    rw [hl]
    exact f.ofLines_lines
  have hm : s.machine g source = Grove.flat ⟨s.machine g source, bodies⟩ := by
    unfold Grove.flat
    rw [← hs]
    rfl
  rw [Session.run_of_ofText_eq_ok hp, ← f.run_flatten, ← hm]

/-- A selection with an arm that calls a function, which defines itself anew. -/
theorem flat_execution_of_call :
    ∃ (f : Forest) (bodies : Table Forest), bodies.names = [['F']] ∧
      Line.split "REVELATION_CASE X\nWHEN \"A\" THEN\nCALL F\nENDCASE".toList = f.lines ∧
      ∀ (g : Guard) (vars : Variables), let s : Session := ⟨vars, bodies.map Forest.lines, false⟩
        let source := "REVELATION_CASE X\nWHEN \"A\" THEN\nCALL F\nENDCASE".toList
        Session.run g s source =
          Session.report (Walk.flat (f.exec g ⟨s.machine g source, bodies⟩)) := by
  let call : Tree := .simple (.call ['F']) ⟨⟨3, "CALL F".toList⟩, by decide⟩
  let again : Tree := .definition ['F'] ⟨⟨1, "DEFINE F AS FUNCTION".toList⟩, by decide⟩ .nil
    ⟨⟨2, "ENDFUNCTION".toList⟩, by decide⟩
  let f : Forest := .cons (.selection ['X'] ⟨⟨1, "REVELATION_CASE X".toList⟩, by decide⟩ .nil
    (.cons (some ['A']) ⟨⟨2, "WHEN \"A\" THEN".toList⟩, by decide⟩ (.cons call .nil) .nil)
    ⟨⟨4, "ENDCASE".toList⟩, by decide⟩) .nil
  have hl : Line.split "REVELATION_CASE X\nWHEN \"A\" THEN\nCALL F\nENDCASE".toList = f.lines := by
    decide
  refine ⟨f, ⟨[(['F'], .cons again .nil)]⟩, rfl, hl, fun g vars => ?_⟩
  exact (f.flat_execution_refines g).2 _ _ _ rfl hl

end Forest

end LineScript

import LineScript.Proofs.Machine.Running

/-! # Points of a run

A run goes from point to point. A point has a machine and the segments under way, innermost first,
each a range of a program. From its first point a run leads to the end that the execution of the
program as a whole has, and every point on the way is reached by single steps.
-/

namespace LineScript

inductive Scope where
  | whole
  | block
  | call
  deriving DecidableEq, Repr

namespace Scope

def enter : Scope → Machine → Machine
  | whole, m => m
  | block, m => m.enterBlock
  | call, m => m.enterCall.enterBlock

def leave : Scope → Machine → Machine
  | whole, m => m
  | block, m => m.leaveBlock
  | call, m => m.leaveBlock.leaveCall

end Scope

/-- A segment under way: the next position, and the position at which it ends. -/
structure Frame where
  program : Program
  index : Nat
  limit : Nat
  scope : Scope

namespace Frame

def segment (f : Frame) : Program := f.program.slice f.index f.limit

def advance (f : Frame) (n : Nat) : Frame := { f with index := f.index + n }

theorem segment_whole (p : Program) (scope : Scope) :
    (⟨p, 0, p.length, scope⟩ : Frame).segment = p := by
  unfold segment Program.slice
  rw [List.take_length, List.drop_zero]

variable {f : Frame} {c : Command} {rest : Program}

theorem rest_eq_slice (h : f.segment = c :: rest) :
    rest = f.program.slice (f.index + 1) f.limit := by
  have ht := congrArg (List.drop 1) h
  unfold segment Program.slice at ht
  rw [List.drop_drop] at ht
  exact ht.symm

theorem getElem?_of_segment (h : f.segment = c :: rest) :
    f.index < f.limit ∧ f.program[f.index]? = some c := by
  have hg : (f.program.take f.limit)[f.index]? = some c := by
    rw [← List.head?_drop]
    exact congrArg List.head? h
  rw [List.getElem?_take] at hg
  split at hg
  · next hlt => exact ⟨hlt, hg⟩
  · cases hg

theorem mem_program_of_segment (h : f.segment = c :: rest) {d : Command} (hd : d ∈ c :: rest) :
    d ∈ f.program := by
  rw [← h] at hd
  exact List.mem_of_mem_take (List.mem_of_mem_drop hd)

theorem segment_advance (h : f.segment = c :: rest) (n : Nat) :
    (f.advance (n + 1)).segment = rest.drop n := by
  have hd : (f.advance (n + 1)).segment = f.segment.drop (n + 1) := by
    unfold segment advance Program.slice
    rw [List.drop_drop]
  rw [hd, h]
  rfl

theorem slice_of_segment (h : f.segment = c :: rest) {start stop : Nat}
    (hs : stop ≤ rest.length) :
    f.program.slice (f.index + 1 + start) (f.index + 1 + stop) = rest.slice start stop := by
  have hl := congrArg List.length h
  have hr := rest_eq_slice h
  unfold segment Program.slice at hl
  rw [List.length_drop, List.length_take, List.length_cons] at hl
  unfold Program.slice at hr ⊢
  rw [hr, List.take_drop, List.take_take, List.drop_drop]
  congr 2
  omega

end Frame

structure Point where
  machine : Machine
  frames : List Frame

/-- What comes of a point: another point, or the end of the run. -/
inductive Progress where
  | running (pt : Point)
  | failed (e : Error) (m : Machine)
  | finished (m : Machine)

namespace Point

def start (p : Program) (m : Machine) : Point := ⟨m, [⟨p, 0, p.length, .whole⟩]⟩

def unwind (m : Machine) (fs : List Frame) : Machine := fs.foldl (fun m f => f.scope.leave m) m

/-- Enters a segment from a line, unless that would pass the limit on nesting. -/
def descend (g : Guard) (l : Line) (f : Frame) (m : Machine) (fs : List Frame) : Progress :=
  if g.maxNesting ≤ m.nesting then .failed (.ofLimit .nesting l g.maxNesting) (unwind m fs)
  else .running ⟨f.scope.enter m, f :: fs⟩

/-- One step: the next command of the innermost segment, or leaving it. -/
def next (g : Guard) : Point → Progress
  | ⟨m, []⟩ => .finished m
  | ⟨m, f :: fs⟩ =>
    match f.segment with
    | [] => .running ⟨f.scope.leave m, fs⟩
    | c :: rest =>
      match Action.ofCommand g c rest m with
      | .fail e m => .failed e (unwind m (f :: fs))
      | .pass done m => .running ⟨m, f.advance (done + 1) :: fs⟩
      | .enter start stop done m =>
        descend g c.line ⟨f.program, f.index + 1 + start, f.index + 1 + stop, .block⟩ m
          (f.advance (done + 1) :: fs)
      | .call p m => descend g c.line ⟨p, 0, p.length, .call⟩ m (f.advance 1 :: fs)

section Stepping

variable {g : Guard} {f : Frame} {c : Command} {rest : Program}

theorem next_of_segment_eq_nil (h : f.segment = []) (m : Machine) (fs : List Frame) :
    next g ⟨m, f :: fs⟩ = .running ⟨f.scope.leave m, fs⟩ := by
  rw [next, h]

theorem next_of_segment_eq_cons (h : f.segment = c :: rest) (m : Machine) (fs : List Frame) :
    next g ⟨m, f :: fs⟩ =
      match Action.ofCommand g c rest m with
      | .fail e m => .failed e (unwind m (f :: fs))
      | .pass done m => .running ⟨m, f.advance (done + 1) :: fs⟩
      | .enter start stop done m =>
        descend g c.line ⟨f.program, f.index + 1 + start, f.index + 1 + stop, .block⟩ m
          (f.advance (done + 1) :: fs)
      | .call p m => descend g c.line ⟨p, 0, p.length, .call⟩ m (f.advance 1 :: fs) := by
  rw [next, h]

end Stepping

inductive Step (g : Guard) : Point → Point → Prop where
  | leave {m : Machine} {f : Frame} {fs : List Frame} : f.segment = [] →
      Step g ⟨m, f :: fs⟩ ⟨f.scope.leave m, fs⟩
  | pass {m m' : Machine} {f : Frame} {fs : List Frame} {c : Command} {rest : Program}
      {done : Nat} : f.segment = c :: rest → Action.ofCommand g c rest m = .pass done m' →
      Step g ⟨m, f :: fs⟩ ⟨m', f.advance (done + 1) :: fs⟩
  | enter {m m' : Machine} {f : Frame} {fs : List Frame} {c : Command} {rest : Program}
      {start stop done : Nat} : f.segment = c :: rest →
      Action.ofCommand g c rest m = .enter start stop done m' → m'.nesting < g.maxNesting →
      Step g ⟨m, f :: fs⟩ ⟨m'.enterBlock,
        ⟨f.program, f.index + 1 + start, f.index + 1 + stop, .block⟩ ::
          f.advance (done + 1) :: fs⟩
  | call {m m' : Machine} {f : Frame} {fs : List Frame} {c : Command} {rest p : Program} :
      f.segment = c :: rest → Action.ofCommand g c rest m = .call p m' →
      m'.nesting < g.maxNesting →
      Step g ⟨m, f :: fs⟩ ⟨m'.enterCall.enterBlock,
        ⟨p, 0, p.length, .call⟩ :: f.advance 1 :: fs⟩

inductive Fails (g : Guard) : Point → Error → Machine → Prop where
  | action {m m' : Machine} {f : Frame} {fs : List Frame} {c : Command} {rest : Program}
      {e : Error} : f.segment = c :: rest → Action.ofCommand g c rest m = .fail e m' →
      Fails g ⟨m, f :: fs⟩ e (unwind m' (f :: fs))
  | enter {m m' : Machine} {f : Frame} {fs : List Frame} {c : Command} {rest : Program}
      {start stop done : Nat} : f.segment = c :: rest →
      Action.ofCommand g c rest m = .enter start stop done m' → g.maxNesting ≤ m'.nesting →
      Fails g ⟨m, f :: fs⟩ (.ofLimit .nesting c.line g.maxNesting) (unwind m' (f :: fs))
  | call {m m' : Machine} {f : Frame} {fs : List Frame} {c : Command} {rest p : Program} :
      f.segment = c :: rest → Action.ofCommand g c rest m = .call p m' →
      g.maxNesting ≤ m'.nesting →
      Fails g ⟨m, f :: fs⟩ (.ofLimit .nesting c.line g.maxNesting) (unwind m' (f :: fs))

theorem step_of_next {g : Guard} {pt pt' : Point} (h : pt.next g = .running pt') :
    Step g pt pt' := by
  obtain ⟨m, fs⟩ := pt
  cases fs with
  | nil => cases h
  | cons f fs =>
    cases hs : f.segment with
    | nil =>
      rw [next_of_segment_eq_nil hs] at h
      cases h
      exact .leave hs
    | cons c rest =>
      rw [next_of_segment_eq_cons hs] at h
      cases ha : Action.ofCommand g c rest m with
      | fail e m' =>
        rw [ha] at h
        cases h
      | pass done m' =>
        rw [ha] at h
        cases h
        exact .pass hs ha
      | enter start stop done m' =>
        rw [ha] at h
        dsimp only [descend] at h
        split at h
        · cases h
        · next hn =>
          cases h
          exact .enter hs ha (Nat.not_le.mp hn)
      | call p m' =>
        rw [ha] at h
        dsimp only [descend] at h
        split at h
        · cases h
        · next hn =>
          cases h
          exact .call hs ha (Nat.not_le.mp hn)

/-- A property of the machine and one of the segments under way that every step keeps. -/
structure Preserved (g : Guard) (P : Machine → Prop) (R : Frame → Prop) : Prop where
  enter : ∀ (scope : Scope) {m : Machine}, P m → P (scope.enter m)
  leave : ∀ (scope : Scope) {m : Machine}, P m → P (scope.leave m)
  action : ∀ {f : Frame} {c : Command} {rest : Program} {m : Machine}, f.segment = c :: rest →
    P m → R f → P (Action.ofCommand g c rest m).machine
  advance : ∀ {f : Frame} {c : Command} {rest : Program} {n : Nat}, f.segment = c :: rest →
    c.Spans rest n → R f → R (f.advance (n + 1))
  block : ∀ {f : Frame} {c : Command} {rest : Program} {start stop : Nat},
    f.segment = c :: rest → stop ≤ rest.length → Program.Balanced (rest.slice start stop) → R f →
    R ⟨f.program, f.index + 1 + start, f.index + 1 + stop, .block⟩
  call : ∀ {m : Machine} {name : Text} {body : List Line} {p : Program}, P m →
    m.functions.get? name = some body → Program.ofLines body = .ok p → R ⟨p, 0, p.length, .call⟩

theorem Preserved.step {g : Guard} {P : Machine → Prop} {R : Frame → Prop}
    (h : Preserved g P R) {pt pt' : Point} (hs : Step g pt pt')
    (hi : P pt.machine ∧ ∀ f ∈ pt.frames, R f) : P pt'.machine ∧ ∀ f ∈ pt'.frames, R f := by
  obtain ⟨hP, hR⟩ := hi
  cases hs with
  | @leave m f fs hseg => exact ⟨h.leave f.scope hP, (List.forall_mem_cons.mp hR).2⟩
  | @pass m m' f fs c rest done hseg ha =>
    obtain ⟨hf, hfs⟩ := List.forall_mem_cons.mp hR
    have hm := h.action hseg hP hf
    have hk := Action.control_ofCommand g c rest m
    rw [ha] at hm hk
    exact ⟨hm, List.forall_mem_cons.mpr ⟨h.advance hseg hk.spans_of_pass hf, hfs⟩⟩
  | @enter m m' f fs c rest start stop done hseg ha _ =>
    obtain ⟨hf, hfs⟩ := List.forall_mem_cons.mp hR
    have hm := h.action hseg hP hf
    have hk := Action.control_ofCommand g c rest m
    rw [ha] at hm hk
    obtain ⟨hstop, hb⟩ := hk.balanced_of_enter
    refine ⟨h.enter .block hm, List.forall_mem_cons.mpr ⟨h.block hseg hstop hb hf, ?_⟩⟩
    exact List.forall_mem_cons.mpr ⟨h.advance hseg hk.spans_of_enter hf, hfs⟩
  | @call m m' f fs c rest p hseg ha _ =>
    obtain ⟨hf, hfs⟩ := List.forall_mem_cons.mp hR
    have hm := h.action hseg hP hf
    have hk := Action.control_ofCommand g c rest m
    rw [ha] at hm hk
    have hp : R ⟨p, 0, p.length, .call⟩ := by
      cases hk with
      | call _ hget hread => exact h.call hP hget hread
    refine ⟨h.enter .call hm, List.forall_mem_cons.mpr ⟨hp, ?_⟩⟩
    exact List.forall_mem_cons.mpr ⟨h.advance hseg hk.spans_of_call hf, hfs⟩

theorem fails_of_next {g : Guard} {pt : Point} {e : Error} {m' : Machine}
    (h : pt.next g = .failed e m') : Fails g pt e m' := by
  obtain ⟨m, fs⟩ := pt
  cases fs with
  | nil => cases h
  | cons f fs =>
    cases hs : f.segment with
    | nil =>
      rw [next_of_segment_eq_nil hs] at h
      cases h
    | cons c rest =>
      rw [next_of_segment_eq_cons hs] at h
      cases ha : Action.ofCommand g c rest m with
      | fail e m' =>
        rw [ha] at h
        cases h
        exact .action hs ha
      | pass done m' =>
        rw [ha] at h
        cases h
      | enter start stop done m' =>
        rw [ha] at h
        dsimp only [descend] at h
        split at h
        · next hn =>
          cases h
          exact .enter hs ha hn
        · cases h
      | call p m' =>
        rw [ha] at h
        dsimp only [descend] at h
        split at h
        · next hn =>
          cases h
          exact .call hs ha hn
        · cases h

theorem eq_of_next_eq_finished {g : Guard} {pt : Point} {m' : Machine}
    (h : pt.next g = .finished m') : pt = ⟨m', []⟩ := by
  obtain ⟨m, fs⟩ := pt
  cases fs with
  | nil =>
    cases h
    rfl
  | cons f fs =>
    exfalso
    unfold next descend at h
    grind

theorem Preserved.unwind {g : Guard} {P : Machine → Prop} {R : Frame → Prop}
    (h : Preserved g P R) {m : Machine} (hm : P m) (fs : List Frame) : P (unwind m fs) := by
  induction fs generalizing m with
  | nil => exact hm
  | cons f fs ih => exact ih (h.leave f.scope hm)

theorem Preserved.fails {g : Guard} {P : Machine → Prop} {R : Frame → Prop}
    (h : Preserved g P R) {pt : Point} {e : Error} {m' : Machine} (hf : Fails g pt e m')
    (hi : P pt.machine ∧ ∀ f ∈ pt.frames, R f) : P m' := by
  have hu {f : Frame} {c : Command} {rest : Program} {m : Machine} {fs : List Frame} {a : Action}
      (hs : f.segment = c :: rest) (ha : Action.ofCommand g c rest m = a)
      (hi : P m ∧ ∀ f' ∈ f :: fs, R f') : P (Point.unwind a.machine (f :: fs)) :=
    h.unwind (ha ▸ h.action hs hi.1 (hi.2 f List.mem_cons_self)) _
  cases hf with
  | action hs ha => exact hu hs ha hi
  | enter hs ha _ => exact hu hs ha hi
  | call hs ha _ => exact hu hs ha hi

theorem tables_unwind (m : Machine) (fs : List Frame) :
    (unwind m fs).vars = m.vars ∧ (unwind m fs).functions = m.functions := by
  induction fs generalizing m with
  | nil => exact ⟨rfl, rfl⟩
  | cons f fs ih =>
    obtain ⟨hv, hf⟩ := ih (f.scope.leave m)
    refine ⟨hv.trans ?_, hf.trans ?_⟩ <;> cases f.scope <;> rfl

theorem Fails.tables {g : Guard} {pt : Point} {e : Error} {m' : Machine} (h : Fails g pt e m') :
    m'.vars = pt.machine.vars ∧ m'.functions = pt.machine.functions := by
  have hu {c : Command} {rest : Program} {m : Machine} {a : Action} (fs : List Frame)
      (ha : Action.ofCommand g c rest m = a) (hp : ∀ done m', a ≠ .pass done m') :
      (unwind a.machine fs).vars = m.vars ∧ (unwind a.machine fs).functions = m.functions := by
    obtain ⟨hv, hf⟩ := tables_unwind a.machine fs
    obtain ⟨hv', hf'⟩ := Action.tables_ofCommand ha hp
    exact ⟨hv.trans hv', hf.trans hf'⟩
  cases h with
  | action _ ha => exact hu _ ha (fun _ _ => by simp)
  | enter _ ha _ => exact hu _ ha (fun _ _ => by simp)
  | call _ ha _ => exact hu _ ha (fun _ _ => by simp)

end Point

namespace Progress

open Exec Point

inductive Leads (g : Guard) : Progress → Progress → Prop where
  | refl (x : Progress) : Leads g x x
  | step {pt : Point} {y : Progress} : Leads g (pt.next g) y → Leads g (.running pt) y

variable {g : Guard}

theorem Leads.trans {x y z : Progress} (h : Leads g x y) (h' : Leads g y z) : Leads g x z := by
  induction h with
  | refl => exact h'
  | step _ ih => exact .step (ih h')

/-- What becomes of a point once its innermost segment has ended like this. -/
def after (fs : List Frame) : Result Unit → Progress
  | .ok _ m => .running ⟨m, fs⟩
  | .error e m => .failed e (unwind m fs)

def ofResult : Result Unit → Progress
  | .ok _ m => .finished m
  | .error e m => .failed e m

/-- The execution of every segment with this much room is led to point by point. -/
def Follows (g : Guard) (room : Nat) : Prop :=
  ∀ (f : Frame) (fs : List Frame) (m : Machine), g.maxNesting ≤ m.nesting + room →
    Leads g (.running ⟨m, f :: fs⟩)
      (after fs (mapMachine f.scope.leave (runFrom g (nested g room) 0 f.segment m)))

theorem leads_descend {room : Nat} (ih : ∀ r < room, Follows g r) (f : Frame)
    (enter leave : Machine → Machine) (he : f.scope.enter = Machine.enterBlock ∘ enter)
    (hl : f.scope.leave = leave ∘ Machine.leaveBlock) {m : Machine}
    (hn : (enter m).nesting = m.nesting) (hb : leave (enter m) = m)
    (hr : g.maxNesting ≤ m.nesting + room) (l : Line) (fs : List Frame) :
    Leads g (descend g l f m fs)
      (after fs (mapMachine leave (nested g room l f.segment (enter m)))) := by
  have hfail : g.maxNesting ≤ m.nesting →
      Leads g (descend g l f m fs)
        (after fs (mapMachine leave (.error (.ofLimit .nesting l g.maxNesting) (enter m)))) := by
    intro h
    rw [descend, if_pos h, mapMachine_error, hb]
    exact .refl _
  cases room with
  | zero => exact hfail hr
  | succ r =>
    rw [nested_succ, hn]
    split
    · next h => exact hfail h
    · next h =>
      have hroom : g.maxNesting ≤ (enter m).enterBlock.nesting + r := by
        change g.maxNesting ≤ (enter m).nesting + 1 + r
        omega
      rw [descend, if_neg h, he, mapMachine_mapMachine, ← hl]
      exact ih r (Nat.lt_succ_self r) f fs _ hroom

/-- Point by point, a run follows the execution of its segments. -/
theorem follows (g : Guard) (room : Nat) : Follows g room := by
  induction room using Nat.strongRecOn with
  | ind room ih =>
    intro f fs m hr
    generalize hs : f.segment = seg
    induction seg using Program.dropInduction generalizing f m with
    | nil =>
      refine .step ?_
      rw [next_of_segment_eq_nil hs]
      exact .refl _
    | cons c rest ihs =>
      have hc := (Action.counters_ofCommand g c rest m).2
      have hk := Action.control_ofCommand g c rest m
      have hrest : ∀ (done : Nat) (r : Result Unit),
          (final r).nesting = m.nesting →
          Leads g (next g ⟨m, f :: fs⟩) (after (f.advance (done + 1) :: fs) r) →
          Leads g (next g ⟨m, f :: fs⟩) (after fs (mapMachine f.scope.leave
            (followedBy (returning done r) fun done =>
              runFrom g (nested g room) 0 (rest.drop done)))) := by
        intro done r hn h
        cases r with
        | error e m' => exact h
        | ok u m' =>
          refine h.trans ?_
          exact ihs done (f.advance (done + 1)) m' (hn ▸ hr) (Frame.segment_advance hs done)
      refine .step ?_
      rw [runFrom_cons]
      have hnext := next_of_segment_eq_cons (g := g) hs m fs
      cases ha : Action.ofCommand g c rest m with
      | fail e m₁ =>
        rw [hnext, ha]
        exact .refl _
      | pass done m₁ =>
        rw [ha] at hc
        refine hrest done (.ok () m₁) hc ?_
        rw [hnext, ha]
        exact .refl _
      | enter start stop done m₁ =>
        rw [ha] at hc hk
        have hstop : stop ≤ rest.length := by
          cases hk with
          | enter _ hcl _ hle =>
            exact Nat.le_trans hle (Nat.le_of_lt (Program.lt_length_of_closer? hcl))
        refine hrest done (nested g room c.line (rest.slice start stop) m₁) ?_ ?_
        · exact ((evolves_counters g).nested room _ _ _).2.trans hc
        · have hd := leads_descend ih
            ⟨f.program, f.index + 1 + start, f.index + 1 + stop, .block⟩ id id
            (funext fun _ => rfl) (funext fun _ => rfl) rfl rfl (hc ▸ hr) c.line
            (f.advance (done + 1) :: fs)
          rw [mapMachine_id] at hd
          rw [hnext, ha, ← Frame.slice_of_segment hs hstop]
          exact hd
      | call p m₁ =>
        rw [ha] at hc
        refine hrest 0 (mapMachine Machine.leaveCall (nested g room c.line p m₁.enterCall)) ?_ ?_
        · rw [final_mapMachine]
          exact ((evolves_counters g).nested room _ _ _).2.trans hc
        · have hd := leads_descend ih ⟨p, 0, p.length, .call⟩ Machine.enterCall Machine.leaveCall
            (funext fun _ => rfl) (funext fun _ => rfl) rfl rfl (hc ▸ hr) c.line
            (f.advance 1 :: fs)
          rw [Frame.segment_whole] at hd
          rw [hnext, ha]
          exact hd

/-- From its first point, a run leads to the end that the execution of its program has. -/
theorem leads_run (g : Guard) (p : Program) (m : Machine) :
    Leads g (.running (start p m)) (ofResult (Exec.run g p m)) := by
  have h := follows g g.maxNesting ⟨p, 0, p.length, .whole⟩ [] m (Nat.le_add_left _ _)
  rw [Frame.segment_whole] at h
  unfold Exec.run
  cases hr : runFrom g (nested g g.maxNesting) 0 p m with
  | ok u m' =>
    rw [hr] at h
    exact h.trans (.step (.refl _))
  | error e m' =>
    rw [hr] at h
    exact h

theorem Leads.invariant {I : Point → Prop} (hstep : ∀ pt pt', Step g pt pt' → I pt → I pt')
    {x y : Progress} (h : Leads g x y) (hx : ∀ pt, x = .running pt → I pt) :
    ∀ pt, y = .running pt → I pt := by
  induction h with
  | refl => exact hx
  | step _ ih => exact ih fun pt' hn => hstep _ _ (step_of_next hn) (hx _ rfl)

theorem Leads.last {x y : Progress} (h : Leads g x y) :
    x = y ∨ ∃ pt, Leads g x (.running pt) ∧ pt.next g = y := by
  induction h with
  | refl => exact .inl rfl
  | @step pt y h ih =>
    right
    rcases ih with rfl | ⟨pt', hl, hn⟩
    · exact ⟨pt, .refl _, rfl⟩
    · exact ⟨pt', .step hl, hn⟩

end Progress

namespace Exec

open Progress

def Reaches (g : Guard) (p : Program) (m : Machine) (pt : Point) : Prop :=
  Leads g (.running (.start p m)) (.running pt)

variable {g : Guard} {p : Program} {m m' : Machine}

theorem Reaches.invariant {I : Point → Prop}
    (hstep : ∀ pt pt', Point.Step g pt pt' → I pt → I pt') (hstart : I (.start p m)) {pt : Point}
    (h : Reaches g p m pt) : I pt :=
  Leads.invariant hstep h (fun _ hx => by cases hx; exact hstart) pt rfl

/-- What every step keeps holds at every point that is reached. -/
theorem Reaches.preserved {P : Machine → Prop} {R : Frame → Prop} (hpres : Point.Preserved g P R)
    {pt : Point} (h : Reaches g p m pt) (hm : P m) (hp : R ⟨p, 0, p.length, .whole⟩) :
    P pt.machine ∧ ∀ f ∈ pt.frames, R f := by
  refine h.invariant (I := fun pt => P pt.machine ∧ ∀ f ∈ pt.frames, R f)
    (fun _ _ hs => hpres.step hs) ⟨hm, fun f hf => ?_⟩
  cases List.mem_singleton.mp hf
  exact hp

theorem exists_reaches_of_run_eq_error {e : Error} (h : run g p m = .error e m') :
    ∃ pt, Reaches g p m pt ∧ pt.next g = .failed e m' := by
  have hl := leads_run g p m
  rw [h] at hl
  exact hl.last.resolve_left (by simp [ofResult])

theorem reaches_of_run_eq_ok {u : Unit} (h : run g p m = .ok u m') : Reaches g p m ⟨m', []⟩ := by
  have hl := leads_run g p m
  rw [h] at hl
  obtain ⟨pt, hr, hn⟩ := hl.last.resolve_left (by simp [ofResult])
  exact Point.eq_of_next_eq_finished hn ▸ hr

theorem final_preserved {P : Machine → Prop} {R : Frame → Prop} (hpres : Point.Preserved g P R)
    (hm : P m) (hp : R ⟨p, 0, p.length, .whole⟩) : P (final (run g p m)) := by
  cases hr : run g p m with
  | ok u m' => exact ((reaches_of_run_eq_ok hr).preserved hpres hm hp).1
  | error e m' =>
    obtain ⟨pt, hpt, hn⟩ := exists_reaches_of_run_eq_error hr
    exact hpres.fails (Point.fails_of_next hn) (hpt.preserved hpres hm hp)

end Exec

end LineScript

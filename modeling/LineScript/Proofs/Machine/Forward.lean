import LineScript.Proofs.Machine.Indexed
import LineScript.Proofs.Machine.Sequence

/-! # Execution moves forward

Execution by position makes no access out of range and ends as the plain execution does. The
commands of a program that it starts stand at increasing positions, between the position at which it
begins and that at which it goes on, however deep in blocks they are; and a range is left exactly at
its end. If the program calls no functions, then the lines executed are those at these positions.
-/

namespace LineScript

namespace Program

def CallFree (p : Program) : Prop := ∀ c ∈ p, ∀ name, c.statement ≠ .call name

def linesAt (p : Program) (is : List Nat) : List Line :=
  is.filterMap fun i => p[i]?.map Command.line

theorem linesAt_append (p : Program) (is js : List Nat) :
    p.linesAt (is ++ js) = p.linesAt is ++ p.linesAt js := List.filterMap_append

theorem linesAt_singleton {p : Program} {i : Nat} {c : Command} (h : p[i]? = some c) :
    p.linesAt [i] = [c.line] := by
  simp [linesAt, h]

theorem linesAt_ico {p : Program} {lo hi : Nat} (hle : lo ≤ hi) (hl : hi ≤ p.length) :
    p.linesAt (List.Ico lo hi) = (p.slice lo hi).lines := by
  induction hle using Nat.decreasingInduction with
  | self =>
    rw [slice_self, List.Ico.self_empty]
    rfl
  | of_succ i hlt ih =>
    obtain ⟨c, hc⟩ : ∃ c, p[i]? = some c := ⟨_, List.getElem?_eq_getElem (by omega)⟩
    rw [List.Ico.eq_cons hlt, slice_eq_cons hc hlt, ← List.singleton_append, linesAt_append,
      linesAt_singleton hc, ih]
    rfl

theorem linesAt_sublist {p : Program} {is : List Nat}
    (h : is.Sublist (List.Ico 0 p.length)) : (p.linesAt is).Sublist p.lines := by
  have hall := linesAt_ico (Nat.zero_le _) (Nat.le_refl p.length)
  rw [slice_whole] at hall
  exact hall ▸ h.filterMap _

end Program

namespace Indexed

/--
From `m` to `m'` the program starts commands at the positions `is`, in order, all of them between
`lo` and `hi`.
-/
structure Visits (p : Program) (lo hi : Nat) (m m' : Machine) (is : List Nat) : Prop where
  sublist : is.Sublist (List.Ico lo hi)
  executed : p.CallFree → m'.executed = (p.linesAt is).reverse ++ m.executed

namespace Visits

variable {p : Program} {lo mid hi : Nat} {m m₁ m₂ : Machine} {is js : List Nat}

theorem nil (h : m₁.executed = m.executed) : Visits p lo hi m m₁ [] :=
  ⟨List.nil_sublist _, fun _ => h⟩

theorem append (h : Visits p lo mid m m₁ is) (h' : Visits p mid hi m₁ m₂ js) (hlo : lo ≤ mid)
    (hhi : mid ≤ hi) : Visits p lo hi m m₂ (is ++ js) where
  sublist := by
    rw [← List.Ico.append_consecutive hlo hhi]
    exact h.sublist.append h'.sublist
  executed := by
    intro hp
    rw [h'.executed hp, h.executed hp, Program.linesAt_append, List.reverse_append,
      List.append_assoc]

theorem mono (h : Visits p lo hi m m₁ is) {lo' hi' : Nat} (hlo : lo' ≤ lo) (hle : lo ≤ hi)
    (hhi : hi ≤ hi') : Visits p lo' hi' m m₁ is where
  sublist := by
    rw [← List.Ico.append_consecutive hlo (Nat.le_trans hle hhi),
      ← List.Ico.append_consecutive hle hhi]
    exact h.sublist.trans ((List.sublist_append_left ..).trans (List.sublist_append_right ..))
  executed := h.executed

end Visits

/--
The execution by position, begun with `starts` noted, ends as the plain one from `m` does, with the
positions noted that it visits between `lo` and `hi`.
-/
def Follows {α β : Type} (p : Program) (lo hi : Nat) (m : Machine) (starts : List Nat) (f : α → β)
    (r : Exec.Result α) (r' : Result β) : Prop :=
  ∃ is, Visits p lo hi m (Exec.final r) is ∧ r' = ends f (starts ++ is) r

def RunnerFollows (inner : Exec.Runner) (inner' : Runner) : Prop :=
  ∀ (l : Line) (p : Program) (start stop : Nat) (s : Trail), start ≤ stop → stop ≤ p.length →
    Follows p start stop s.machine s.starts id (inner l (p.slice start stop) s.machine)
      (inner' l p start stop s)

theorem Follows.still {α β : Type} {p : Program} {lo hi : Nat} {m : Machine} {f : α → β}
    {r : Exec.Result α} (h : (Exec.final r).executed = m.executed) (starts : List Nat) :
    Follows p lo hi m starts f r (ends f starts r) :=
  ⟨[], .nil h, by rw [List.append_nil]⟩

theorem bind_return {α β γ : Type} {act : Indexed β} {s : Trail} {starts : List Nat} {f : α → β}
    {r : Exec.Result α} (h : act s = ends f starts r) (b : γ) :
    (do let _ ← act; return b : Indexed γ) s = ends (fun _ => b) starts r := by
  cases r with
  | ok a m => exact Exec.bind_ok h
  | error e m => exact Exec.bind_error h

theorem ends_returning {α β : Type} (f : α → β) (starts : List Nat) (a : α)
    (r : Exec.Result Unit) : ends f starts (Exec.returning a r) = ends (fun _ => f a) starts r := by
  cases r <;> rfl

theorem eq_ok_of_ends {α β : Type} {f : α → β} {starts : List Nat} {r : Exec.Result α} {b : β}
    {t : Trail} (h : ends f starts r = .ok b t) :
    ∃ a, r = .ok a t.machine ∧ f a = b ∧ t.starts = starts := by
  cases r with
  | ok a m =>
    cases h
    exact ⟨a, rfl, rfl, rfl⟩
  | error e m => cases h

theorem ends_ne_outOfRange {α β : Type} (f : α → β) (starts : List Nat) (r : Exec.Result α)
    (t : Trail) : ends f starts r ≠ .error .outOfRange t := by
  cases r <;> simp [ends]

theorem between_apply {act : Indexed Unit} {s : Trail} {starts : List Nat} {r : Exec.Result Unit}
    (enter leave : Machine → Machine)
    (h : act ⟨enter s.machine, s.starts⟩ = ends id starts r) :
    between enter leave act s = ends id starts (Exec.mapMachine leave r) := by
  rw [between, h]
  cases r <;> rfl

theorem apart_apply {act : Indexed Unit} {s : Trail} {starts : List Nat} {r : Exec.Result Unit}
    (h : act ⟨s.machine, []⟩ = ends id starts r) : apart act s = ends id s.starts r := by
  rw [apart, h]
  cases r <;> rfl

/-- The position at which a command at `index` goes on, or the limit if it fails. -/
def resume (index limit : Nat) : Exec.Result Nat → Nat
  | .ok done _ => index + 1 + done
  | .error _ _ => limit

section Command

variable {g : Guard} {inner : Exec.Runner} {inner' : Runner} {p : Program} {index limit : Nat}
  {c : Command}

theorem resume_execute (g : Guard) (inner : Exec.Runner) (c : Command) (p : Program)
    (hi : index < limit) (m : Machine) :
    index < resume index limit (Exec.execute g inner c (p.slice (index + 1) limit) m) ∧
      resume index limit (Exec.execute g inner c (p.slice (index + 1) limit) m) ≤ limit := by
  cases hr : Exec.execute g inner c (p.slice (index + 1) limit) m with
  | error e m' => exact ⟨hi, Nat.le_refl _⟩
  | ok done m' =>
    rw [Exec.execute_apply] at hr
    have hle := (Exec.spans_of_perform hr).le_length
    rw [Program.length_slice] at hle
    dsimp only [resume]
    omega

theorem follows_perform (hin : RunnerFollows inner inner') (hc : p[index]? = some c)
    (hl : limit ≤ p.length) {m : Machine} {a : Action}
    (ha : Action.Control g c (p.slice (index + 1) limit) m a) (starts : List Nat) :
    Follows p (index + 1)
      (resume index limit (a.perform inner c.line (p.slice (index + 1) limit))) a.machine starts
      (index + 1 + ·) (a.perform inner c.line (p.slice (index + 1) limit))
      (perform inner' c.line p index starts a) := by
  cases ha with
  | interrupted | steps | callDepth | unclosed | malformed =>
    exact Follows.still (r := .error _ _) rfl starts
  | plain | block => exact Follows.still (r := .ok _ _) rfl starts
  | @enter b i start stop m' _ hclose hle hstop =>
    have hlt := (stop_of_closer? hclose).1
    obtain ⟨is, hv, hr⟩ := hin c.line p (index + 1 + start) (index + 1 + stop) ⟨m', starts⟩
      (by omega) (by omega)
    rw [← Program.slice_slice p (show index + 1 + stop ≤ limit by omega)] at hv hr
    unfold Action.perform
    dsimp only [Action.machine]
    refine ⟨is, ?_, (bind_return hr _).trans (ends_returning ..).symm⟩
    generalize inner c.line _ m' = r at hv
    rw [Exec.final_returning]
    cases r <;> exact hv.mono (by omega) (by omega) (by dsimp only [Exec.returning, resume]; omega)
  | @call name body q m' hs =>
    obtain ⟨is, -, hr⟩ := hin c.line q 0 q.length ⟨m'.enterCall, []⟩ (Nat.zero_le _)
      (Nat.le_refl _)
    rw [Program.slice_whole] at hr
    refine ⟨[], ⟨List.nil_sublist _, fun hp => ?_⟩, ?_⟩
    · exact absurd hs (hp c (List.mem_of_getElem? hc) name)
    · rw [List.append_nil]
      have happly : apart (between Machine.enterCall Machine.leaveCall (inner' c.line q 0 q.length))
          ⟨m', starts⟩ = ends id starts _ := apart_apply (between_apply _ _ hr)
      exact (bind_return happly _).trans (ends_returning (index + 1 + ·) starts 0 _).symm

theorem visits_start (hc : p[index]? = some c) (rest : Program) (m : Machine) :
    Visits p index (index + 1) m (Action.ofCommand g c rest m).machine (noted g m index) := by
  have hstart := Action.start_ofCommand g c rest m
  generalize Action.ofCommand g c rest m = a at hstart
  cases hstart with
  | interrupted hint =>
    rw [noted, if_pos (.inl hint)]
    exact .nil rfl
  | exhausted _ hs =>
    rw [noted, if_pos (.inr hs)]
    exact .nil rfl
  | started hint hs hcont =>
    rw [noted, if_neg (by simp [hint, hs])]
    refine ⟨by rw [List.Ico.succ_singleton], fun _ => ?_⟩
    rw [hcont.executed, Program.linesAt_singleton hc]
    rfl

/-- A command is executed by position as it is in its segment, and goes on behind its block. -/
theorem follows_execute (hin : RunnerFollows inner inner') (hc : p[index]? = some c)
    (hi : index < limit) (hl : limit ≤ p.length) (s : Trail) :
    Follows p index
      (resume index limit (Exec.execute g inner c (p.slice (index + 1) limit) s.machine)) s.machine
      s.starts (index + 1 + ·) (Exec.execute g inner c (p.slice (index + 1) limit) s.machine)
      (execute g inner' p index limit s) := by
  have hlt := (resume_execute g inner c p hi s.machine).1
  have hstart := visits_start (g := g) hc (p.slice (index + 1) limit) s.machine
  rw [Exec.execute_apply] at hlt ⊢
  rw [execute_apply hc hi hl]
  obtain ⟨is, hv, hr⟩ := follows_perform hin hc hl (Action.control_ofCommand ..)
    (s.starts ++ noted g s.machine index)
  refine ⟨noted g s.machine index ++ is, hstart.append hv (Nat.le_succ _) hlt, ?_⟩
  rw [hr, List.append_assoc]

end Command

section Ranges

variable {g : Guard} {inner : Exec.Runner} {inner' : Runner}

theorem follows_loop (hin : RunnerFollows inner inner') {p : Program} {stop : Nat}
    (hl : stop ≤ p.length) {turns index : Nat} (hi : index ≤ stop) (ht : stop - index ≤ turns)
    (s : Trail) :
    Follows p index stop s.machine s.starts (fun _ => stop)
      (Exec.runFrom g inner 0 (p.slice index stop) s.machine)
      (loop g inner' p stop turns index s) := by
  have hend (s : Trail) : Follows p stop stop s.machine s.starts (fun _ => stop)
      (Exec.runFrom g inner 0 (p.slice stop stop) s.machine) (.ok stop s) := by
    rw [Program.slice_self]
    exact Follows.still (r := .ok () s.machine) rfl s.starts
  induction turns generalizing index s with
  | zero =>
    obtain rfl : index = stop := by omega
    exact hend s
  | succ turns ih =>
    rw [loop]
    split
    · next hlt =>
      obtain ⟨c, hc⟩ : ∃ c, p[index]? = some c := ⟨_, List.getElem?_eq_getElem (by omega)⟩
      obtain ⟨hnext, hstop⟩ := resume_execute g inner c p hlt s.machine
      obtain ⟨is, hv, hr⟩ := follows_execute (g := g) hin hc hlt hl s
      rw [Program.slice_eq_cons hc hlt, Exec.runFrom_cons, ← Exec.execute_apply]
      cases hx : Exec.execute g inner c (p.slice (index + 1) stop) s.machine with
      | error e m' =>
        rw [hx] at hv hr
        exact ⟨is, hv, Exec.bind_error hr⟩
      | ok done m' =>
        rw [hx] at hv hr hnext hstop
        rw [Exec.bind_ok hr, Exec.followedBy_ok, Program.drop_slice]
        dsimp only [resume] at hnext hstop
        obtain ⟨js, hv', hr'⟩ := ih hstop (by omega) ⟨m', s.starts ++ is⟩
        refine ⟨is ++ js, hv.append hv' (Nat.le_of_lt hnext) hstop, ?_⟩
        rw [hr', List.append_assoc]
    · obtain rfl : index = stop := by omega
      exact hend s

theorem follows_run (hin : RunnerFollows inner inner') {p : Program} {start stop : Nat}
    (hle : start ≤ stop) (hl : stop ≤ p.length) (s : Trail) :
    Follows p start stop s.machine s.starts (fun _ => stop)
      (Exec.runFrom g inner 0 (p.slice start stop) s.machine) (run g inner' p start stop s) :=
  follows_loop hin hl hle (Nat.le_refl _) s

/-- Ranges are run by position as their segments are, at every depth. -/
theorem runnerFollows_nested (g : Guard) (room : Nat) :
    RunnerFollows (Exec.nested g room) (nested g room) := by
  induction room with
  | zero =>
    intro l p start stop s _ _
    exact Follows.still (r := .error _ s.machine) rfl s.starts
  | succ room ih =>
    intro l p start stop s hle hl
    rw [Exec.nested_succ, nested, Exec.bind_ok (Exec.get_apply s)]
    split
    · exact Follows.still (r := .error _ s.machine) rfl s.starts
    · obtain ⟨is, hv, hr⟩ := follows_run (g := g) ih hle hl ⟨s.machine.enterBlock, s.starts⟩
      refine ⟨is, ⟨hv.sublist, ?_⟩, ?_⟩
      · intro hp
        rw [Exec.final_mapMachine]
        exact hv.executed hp
      · exact between_apply _ _ (bind_return hr ())

end Ranges

end Indexed

end LineScript

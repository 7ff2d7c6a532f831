import LineScript.Proofs.Nesting.Scan
import LineScript.Proofs.Session.Malformed

/-! # Unterminated blocks

While a run is under way, its outermost segment is at a place where the scan of the whole program
also comes by, and every segment inside is balanced. So an unterminated block is a matter of the
source alone, and the error names the header at which the scan stops.
-/

namespace LineScript

open Program

/-- The outermost segment walks along the top level of `p`; only it was entered as a whole. -/
def Frame.Grounded (p : Program) : List Frame → Prop
  | [] => p.scan = none
  | [f] => f.scope = .whole ∧ f.program = p ∧ f.limit = p.length ∧ p.scanFrom f.index = p.scan
  | f :: f' :: fs => f.scope ≠ .whole ∧ Grounded p (f' :: fs)

namespace Frame.Grounded

variable {p : Program} {f : Frame} {fs : List Frame}

theorem push {f' : Frame} (h : Grounded p (f :: fs)) (hw : f'.scope ≠ .whole) :
    Grounded p (f' :: f :: fs) := ⟨hw, h⟩

theorem of_whole (h : Grounded p (f :: fs)) (hw : f.scope = .whole) :
    fs = [] ∧ f.program = p ∧ f.limit = p.length ∧ p.scanFrom f.index = p.scan := by
  cases fs with
  | nil => exact ⟨rfl, h.2⟩
  | cons f' fs => exact absurd hw h.1

theorem scanFrom_advance {c : Command} {rest : Program} {n : Nat} (hl : f.limit = p.length)
    (hp : f.program = p) (hs : f.segment = c :: rest) (hn : c.Spans rest n) :
    p.scanFrom (f.index + (n + 1)) = p.scanFrom f.index := by
  obtain ⟨-, hc⟩ := getElem?_of_segment hs
  have hr := rest_eq_slice hs
  rw [hp] at hc
  rw [hl, hp] at hr
  cases hn with
  | plain ho => exact (scanFrom_of_plain hc ho).symm
  | @block b i ho hcl =>
    rw [hr] at hcl
    have he : p.findCloser f.index b p.length = .ok (f.index + 1 + i) :=
      findCloser_eq_ok_iff.mpr ⟨i, hcl, rfl⟩
    rw [scanFrom_of_closed hc ho he]
    congr 1
    omega

theorem advance {c : Command} {rest : Program} {n : Nat} (h : Grounded p (f :: fs))
    (hs : f.segment = c :: rest) (hn : c.Spans rest n) :
    Grounded p (f.advance (n + 1) :: fs) := by
  cases fs with
  | cons f' fs => exact h
  | nil =>
    obtain ⟨hw, hp, hl, hi⟩ := h
    exact ⟨hw, hp, hl, (scanFrom_advance hl hp hs hn).trans hi⟩

theorem leave (h : Grounded p (f :: fs)) (hs : f.segment = []) : Grounded p fs := by
  cases fs with
  | cons f' fs => exact h.2
  | nil =>
    obtain ⟨-, hp, hl, hi⟩ := h
    have hle : p.length ≤ f.index := by
      have := List.drop_eq_nil_iff.mp hs
      rwa [hl, hp, List.take_length] at this
    exact hi.symm.trans (scanFrom_of_length_le hle)

end Frame.Grounded

theorem Point.Step.grounded {g : Guard} {p : Program} {pt pt' : Point} (h : Step g pt pt')
    (hi : Frame.Grounded p pt.frames) : Frame.Grounded p pt'.frames := by
  have hk := Action.control_ofCommand g
  cases h with
  | leave hs => exact hi.leave hs
  | @pass m m' f fs c rest done hs ha => exact hi.advance hs ((ha ▸ hk c rest m).spans_of_pass)
  | @enter m m' f fs c rest start stop done hs ha _ =>
    exact (hi.advance hs ((ha ▸ hk c rest m).spans_of_enter)).push (by simp)
  | @call m m' f fs c rest q hs ha _ =>
    exact (hi.advance hs ((ha ▸ hk c rest m).spans_of_call)).push (by simp)

theorem Exec.Reaches.grounded {g : Guard} {p : Program} {m : Machine} {pt : Point}
    (h : Reaches g p m pt) : Frame.Grounded p pt.frames :=
  h.invariant (fun _ _ hs => hs.grounded) ⟨rfl, rfl, rfl, rfl⟩

namespace Point

variable {g : Guard} {p : Program} {pt : Point} {e : Error} {m' : Machine}

/-- A block that is found open is the one at which the scan of the whole program stops. -/
theorem Sound.of_unterminated (hs : Sound pt) (hg : Frame.Grounded p pt.frames)
    (h : Fails g pt e m')
    (hk : e.kind = .unterminated) :
    ∃ f c b, pt.frames = [f] ∧ f.scope = .whole ∧ p.scan = some (f.index, b) ∧
      p[f.index]? = some c ∧ e = .ofOpenBlock c.line b := by
  rcases hs.of_fails h with hi | hi | ⟨m, f, fs, c, rest, b, rfl, hw, hseg, ho, hc, rfl⟩
  · cases hi.symm.trans hk
  · rw [hk] at hi
    cases hi
  · obtain ⟨rfl, hp, hl, hi⟩ := hg.of_whole hw
    obtain ⟨-, hget⟩ := Frame.getElem?_of_segment hseg
    have hr := Frame.rest_eq_slice hseg
    rw [hp] at hget
    rw [hl, hp] at hr
    refine ⟨f, c, b, rfl, hw, ?_, hget, rfl⟩
    rw [← hi]
    exact scanFrom_of_open hget ho (hr ▸ hc)

theorem Sound.findCloser_limit (hs : Sound pt) (hg : Frame.Grounded p pt.frames) {f : Frame}
    {fs : List Frame} {c : Command} {b : Block} (hf : pt.frames = f :: fs)
    (hlt : f.index < f.limit) (hget : f.program[f.index]? = some c)
    (ho : c.statement.opens = some b) :
    f.program.findCloser f.index b f.limit =
      f.program.findCloser f.index b f.program.length := by
  have hsf := hs.frames f (hf ▸ List.mem_cons_self)
  rw [hf] at hg
  by_cases hw : f.scope = .whole
  · obtain ⟨-, hp, hl, -⟩ := hg.of_whole hw
    rw [hl, hp]
  · have hseg : f.segment = c :: f.program.slice (f.index + 1) f.limit := by
      have hg' : (f.program.take f.limit)[f.index]? = some c := by
        rwa [List.getElem?_take, if_pos hlt]
      obtain ⟨hi, rfl⟩ := List.getElem?_eq_some_iff.mp hg'
      exact List.drop_eq_getElem_cons hi
    have hb := hsf.balanced hw
    rw [hseg] at hb
    obtain ⟨i, hi, -⟩ := hb.closer? ho
    have he := findCloser_eq_ok_iff.mpr ⟨i, hi, rfl⟩
    rw [he, findCloser_length_of_limit hsf.limit_le he]

end Point

namespace Session

variable {g : Guard} {s : Session} {source : Text} {p : Program}

theorem scan_of_ok (hp : Program.ofText source = .ok p) {shown : Text}
    (h : (run g s source).result = .ok shown) : p.scan = none := by
  obtain ⟨m, hr, -⟩ := exec_of_result_eq_ok hp h
  exact (Exec.reaches_of_run_eq_ok hr).grounded

theorem scan_of_unterminated (hs : Functions.Sound s.functions)
    (hp : Program.ofText source = .ok p) {e : Error} (h : (run g s source).result = .error e)
    (hk : e.kind = .unterminated) :
    ∃ u c b, p.scan = some (u, b) ∧ p[u]? = some c ∧ e = .ofOpenBlock c.line b := by
  obtain ⟨m, hr⟩ := exec_of_result_eq_error hp h
  obtain ⟨pt, hpt, hn⟩ := Exec.exists_reaches_of_run_eq_error hr
  have hpt' := hpt.sound hs (Program.isRead_of_ofLines hp)
  obtain ⟨f, c, b, -, -, hscan, hc, he⟩ :=
    hpt'.of_unterminated hpt.grounded (Point.fails_of_next hn) hk
  exact ⟨f.index, c, b, hscan, hc, he⟩

/--
An unterminated block is a property of the top level of the source. If the scan meets no open
header, no run ends in such an error; if it stops at one, no run succeeds, and such an error names
that header. The error arises in the whole program only, never in a segment entered from it, and
every header finds the same closer before the limit of its segment as in the whole program.
-/
theorem unterminated_at_top_level (hs : Reachable s) (hp : Program.ofText source = .ok p)
    (g : Guard) :
    (p.scan = none → ∀ e, (run g s source).result = .error e → e.kind ≠ .unterminated) ∧
    (∀ u b, p.scan = some (u, b) →
      (∀ shown, (run g s source).result ≠ .ok shown) ∧
      ∀ e, (run g s source).result = .error e → e.kind = .unterminated →
        ∃ c, p[u]? = some c ∧ e = .ofOpenBlock c.line b) ∧
    (∀ pt, Exec.Reaches g p (s.machine g source) pt →
      (∀ e m', pt.next g = .failed e m' → e.kind = .unterminated →
        ∃ f, pt.frames = [f] ∧ f.scope = .whole) ∧
      ∀ f fs c b, pt.frames = f :: fs → f.index < f.limit → f.program[f.index]? = some c →
        c.statement.opens = some b →
        f.program.findCloser f.index b f.limit =
          f.program.findCloser f.index b f.program.length) := by
  have hsound : ∀ {pt}, Exec.Reaches g p (s.machine g source) pt → pt.Sound :=
    fun h => h.sound hs.sound (Program.isRead_of_ofLines hp)
  refine ⟨?_, ?_, ?_⟩
  · intro hscan e he hk
    obtain ⟨u, c, b, hu, -⟩ := scan_of_unterminated hs.sound hp he hk
    cases hscan.symm.trans hu
  · intro u b hscan
    constructor
    · intro shown hok
      cases hscan.symm.trans (scan_of_ok hp hok)
    · intro e he hk
      obtain ⟨u', c, b', hu, hc, rfl⟩ := scan_of_unterminated hs.sound hp he hk
      cases hscan.symm.trans hu
      exact ⟨c, hc, rfl⟩
  · intro pt hpt
    constructor
    · intro e m' hn hk
      obtain ⟨f, c, b, hf, hw, -⟩ :=
        (hsound hpt).of_unterminated hpt.grounded (Point.fails_of_next hn) hk
      exact ⟨f, hf, hw⟩
    · intro f fs c b hf hlt hget ho
      exact (hsound hpt).findCloser_limit hpt.grounded hf hlt hget ho

/-- The function called holds a stray closer; the error is that of the header left open. -/
theorem unterminated_after_call :
    ∃ s : Session, Reachable s ∧ s.functions.names = [['F']] ∧
      (∃ e, (run {} s "CALL F\nDEFINE G AS FUNCTION\nENDIF".toList).result = .error e ∧
        e.kind = .unterminated) ∧
      ∀ g, ∀ e, (run g s "CALL F\nDEFINE G AS FUNCTION\nENDIF".toList).result = .error e →
        e.kind = .unterminated → e = .ofOpenBlock ⟨2, "DEFINE G AS FUNCTION".toList⟩ .function := by
  have hs : Reachable (run {} {} "DEFINE F AS FUNCTION\nENDIF\nENDFUNCTION".toList).session :=
    .run .new _ _
  have hp : Program.ofText "CALL F\nDEFINE G AS FUNCTION\nENDIF".toList =
      .ok [⟨⟨1, "CALL F".toList⟩, .call ['F']⟩,
        ⟨⟨2, "DEFINE G AS FUNCTION".toList⟩, .define ['G']⟩,
        ⟨⟨3, "ENDIF".toList⟩, .close .conditional⟩] := by decide
  refine ⟨_, hs, by decide +kernel, ⟨.ofOpenBlock ⟨2, "DEFINE G AS FUNCTION".toList⟩ .function,
    by decide +kernel, rfl⟩, fun g e he hk => ?_⟩
  obtain ⟨c, hc, rfl⟩ :=
    ((unterminated_at_top_level hs hp g).2.1 1 .function (by decide +kernel)).2 e he hk
  cases hc
  rfl

end Session

end LineScript

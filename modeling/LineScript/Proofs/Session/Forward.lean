import Mathlib.Data.List.Nodup
import LineScript.Proofs.Machine.Forward
import LineScript.Proofs.Numbering
import LineScript.Proofs.Session.Limits

/-! # Runs move forward

A run goes through its program from front to back. In a source that calls no functions no line is
executed twice, and the lines are executed in the order of their numbers.
-/

namespace LineScript

theorem Program.callFree_of_ofLines {ls : List Line} {p : Program} (h : ofLines ls = .ok p)
    (hls : ∀ l ∈ ls, ∀ name, Statement.read l.text ≠ .ok (.call name)) : p.CallFree := by
  obtain ⟨rfl, hr⟩ := ofLines_eq_ok_iff.mp h
  intro c hc name hs
  exact hls c.line (List.mem_map_of_mem hc) name (hs ▸ hr c hc)

/-- Without calls a run executes some of the lines of its source, in their order. -/
theorem Session.executed_sublist (g : Guard) (s : Session) {source : Text}
    (h : ∀ l ∈ Line.split source, ∀ name, Statement.read l.text ≠ .ok (.call name)) :
    (run g s source).executed.Sublist (Line.split source) := by
  cases hp : Program.ofText source with
  | error e =>
    rw [executed_of_ofText_eq_error hp]
    exact List.nil_sublist _
  | ok p =>
    obtain ⟨is, hv, -⟩ := Indexed.follows_run (g := g)
      (Indexed.runnerFollows_nested g g.maxNesting) (Nat.zero_le _) (Nat.le_refl p.length)
      ⟨s.machine g source, []⟩
    rw [Program.slice_whole] at hv
    have hx : (Exec.final (Exec.run g p (s.machine g source))).executed = (p.linesAt is).reverse :=
      (hv.executed (Program.callFree_of_ofLines hp h)).trans (List.append_nil _)
    rw [run_of_ofText_eq_ok hp, executed_report, hx, List.reverse_reverse,
      ← Program.lines_of_ofLines hp]
    exact Program.linesAt_sublist hv.sublist

/--
Execution only moves forward and stays inside its range. A command executed below a limit goes on at
a later position up to the limit, the commands of the program that it starts on the way stand at
increasing positions before that one, and a range that is run is left exactly at its end. No access
to the program is out of range, and the execution is the one of the segment; if the program has no
calls, the lines executed are those at these positions. So in a source without calls lines are
executed in the order of their numbers, and none of them twice.
-/
theorem Session.moves_forward (g : Guard) :
    (∀ (room : Nat) (p : Program) (m : Machine) (index limit : Nat),
      index < limit → limit ≤ p.length →
      let r := Indexed.execute g (Indexed.nested g room) p index limit ⟨m, []⟩
      (∀ next t, r = .ok next t →
        index < next ∧ next ≤ limit ∧ t.starts.Sublist (List.Ico index next)) ∧
      (∀ t, r ≠ .error .outOfRange t) ∧
      ∃ c starts, p[index]? = some c ∧ starts.Sublist (List.Ico index limit) ∧
        let r' := Exec.execute g (Exec.nested g room) c (p.slice (index + 1) limit) m
        r = Indexed.ends (index + 1 + ·) starts r' ∧
          (p.CallFree → (Exec.final r').executed = (p.linesAt starts).reverse ++ m.executed)) ∧
    (∀ (room : Nat) (p : Program) (m : Machine) (start stop : Nat),
      start ≤ stop → stop ≤ p.length →
      let r := Indexed.run g (Indexed.nested g room) p start stop ⟨m, []⟩
      (∀ i t, r = .ok i t → i = stop) ∧
      (∀ t, r ≠ .error .outOfRange t) ∧
      ∃ starts, starts.Sublist (List.Ico start stop) ∧
        let r' := Exec.runFrom g (Exec.nested g room) 0 (p.slice start stop) m
        r = Indexed.ends (fun _ => stop) starts r' ∧
          (p.CallFree → (Exec.final r').executed = (p.linesAt starts).reverse ++ m.executed)) ∧
    (∀ (s : Session) (source : Text),
      (∀ l ∈ Line.split source, ∀ name, Statement.read l.text ≠ .ok (.call name)) →
      (run g s source).executed.Sublist (Line.split source) ∧
        ((run g s source).executed.map Line.number).Pairwise (· < ·) ∧
        (run g s source).executed.Nodup) := by
  refine ⟨?_, ?_, ?_⟩
  · intro room p m index limit hi hl r
    obtain ⟨c, hc⟩ : ∃ c, p[index]? = some c := ⟨_, List.getElem?_eq_getElem (by omega)⟩
    obtain ⟨starts, hv, hr⟩ := Indexed.follows_execute (g := g)
      (Indexed.runnerFollows_nested g room) hc hi hl ⟨m, []⟩
    obtain ⟨hnext, hlimit⟩ := Indexed.resume_execute g (Exec.nested g room) c p hi m
    change r = Indexed.ends _ starts _ at hr
    refine ⟨?_, ?_, c, starts, hc, (hv.mono (Nat.le_refl _) (Nat.le_of_lt hnext) hlimit).sublist,
      hr, hv.executed⟩
    · intro next t h
      obtain ⟨done, hx, rfl, hs⟩ := Indexed.eq_ok_of_ends (hr.symm.trans h)
      rw [hx] at hv hnext hlimit
      exact ⟨hnext, hlimit, hs ▸ hv.sublist⟩
    · intro t h
      exact Indexed.ends_ne_outOfRange _ _ _ t (hr.symm.trans h)
  · intro room p m start stop hle hl r
    obtain ⟨starts, hv, hr⟩ := Indexed.follows_run (g := g)
      (Indexed.runnerFollows_nested g room) hle hl ⟨m, []⟩
    change r = Indexed.ends _ starts _ at hr
    refine ⟨?_, ?_, starts, hv.sublist, hr, hv.executed⟩
    · intro i t h
      obtain ⟨-, -, rfl, -⟩ := Indexed.eq_ok_of_ends (hr.symm.trans h)
      rfl
    · intro t h
      exact Indexed.ends_ne_outOfRange _ _ _ t (hr.symm.trans h)
  · intro s source h
    have hsub := executed_sublist g s h
    have hlt := (Line.pairwise_number_split source).sublist (hsub.map Line.number)
    exact ⟨hsub, hlt, List.Nodup.of_map Line.number (hlt.imp Nat.ne_of_lt)⟩

/-- A conditional in an arm of a selection: the text of the branches not taken is passed over. -/
theorem Session.selection_moves_forward :
    let source : Text := ["REVELATION_CASE X", "WHEN \"2\" THEN", "IF X = 1 THEN", "ELSE", "X = 3",
      "ENDIF", "ELSE", "ENDCASE", "PRINT(X)"].flatMap fun l => l.toList ++ ['\n']
    let s := (run {} {} "X = 2".toList).session
    let p := (Program.ofText source).toOption.getD []
    let act := Indexed.execute {} (Indexed.nested {} 256) p 0 9
    (∀ l ∈ Line.split source, ∀ name, Statement.read l.text ≠ .ok (.call name)) ∧
    (run {} s source).executed.map Line.number = [1, 3, 5, 9] ∧
    (run {} s source).executed.Nodup ∧
    Program.ofText source = .ok p ∧ p.length = 9 ∧
    (do let next ← act; return (next, (← get).starts)).run' ⟨.ofSession {} s, []⟩ =
      some (8, [0, 2, 4]) ∧
    (∀ next t, act ⟨.ofSession {} s, []⟩ = .ok next t →
      0 < next ∧ next ≤ 9 ∧ t.starts.Sublist (List.Ico 0 next)) ∧
    ∀ t, Indexed.run {} (Indexed.nested {} 256) p 0 9 ⟨.ofSession {} s, []⟩ ≠
      .error .outOfRange t := by
  intro source s p act
  have hread : (Line.split source).map (fun l => Statement.read l.text) =
      [.ok (.caseOf ['X']), .ok (.when ['2']), .ok (.ifThen (.compare ['X'] .equal ['1'])),
        .ok .otherwise, .ok (.assign ['X'] ['3']), .ok (.close .conditional), .ok .otherwise,
        .ok (.close .selection), .ok (.print (.token ['X']))] := by
    decide +kernel
  have hcalls : ∀ l ∈ Line.split source, ∀ name, Statement.read l.text ≠ .ok (.call name) := by
    intro l hl name h
    have hm := List.mem_map_of_mem hl (f := fun l => Statement.read l.text)
    rw [hread, h] at hm
    simp at hm
  have hlen : p.length = 9 := by decide +kernel
  obtain ⟨hexec, hrun, hsource⟩ := moves_forward {}
  refine ⟨hcalls, by decide +kernel, (hsource s source hcalls).2.2, by decide +kernel, hlen,
    by decide +kernel, ?_, ?_⟩
  · exact (hexec 256 p (.ofSession {} s) 0 9 (by decide) (Nat.le_of_eq hlen.symm)).1
  · exact (hrun 256 p (.ofSession {} s) 0 9 (by decide) (Nat.le_of_eq hlen.symm)).2.1

end LineScript

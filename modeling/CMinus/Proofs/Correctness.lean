import CMinus.Proofs.Run
import CMinus.Proofs.Statement
import CMinus.Proofs.Typing

namespace CMinus

theorem Function.layoutAll_split {before after : List Function} {f : Function} {nodes : List Node}
    (h : layoutAll (before ++ f :: after) = .ok nodes) :
    ∃ earlier body later, nodes = earlier ++ .function f.name f.returns body :: later ∧
      earlier.length = before.length ∧ f.body.layout f.returns none = .ok body := by
  induction before generalizing nodes with
  | nil =>
    simp only [List.nil_append, layoutAll, layout, bind_eq_ok, pure_eq_ok] at h
    obtain ⟨_, ⟨body, hbody, rfl⟩, later, -, rfl⟩ := h
    exact ⟨[], body, later, rfl, rfl, hbody⟩
  | cons g before ih =>
    simp only [List.cons_append, layoutAll, bind_eq_ok, pure_eq_ok] at h
    obtain ⟨node, -, nodes, hrest, rfl⟩ := h
    obtain ⟨earlier, body, later, rfl, hlength, hbody⟩ := ih hrest
    exact ⟨node :: earlier, body, later, rfl, by simp [hlength], hbody⟩

section Linking

open Compile

variable {s : Source} {p : Program} {image : Image} {code : Code} {entries : NameMap Entry}

theorem Source.Lays.hosted (h : s.Lays p) (hcompile : p.compile = .ok image)
    (hfills : image.Fills code)
    (hdecls : Compile.declarations p intrinsics routinesBase p.declarations =
      .ok (entries, image.routines)) {name : String} {f : Function} {e : Entry}
    (hf : s.function? name = some f) (hentry : entries.get? name = some e) :
    ∃ body table opening ops, Hosted p code entries f e body table opening ops := by
  have hmem := List.mem_of_find?_eq_some hf
  obtain rfl : f.name = name := by simpa using List.find?_some hf
  obtain ⟨table, htable, hsignature⟩ := h.signatures f hmem
  obtain ⟨before, after, hfunctions⟩ := List.append_of_mem hmem
  have hnodes := h.declarations
  rw [hfunctions] at hnodes
  obtain ⟨earlier, body, later, hnodes, -, hbody⟩ := Function.layoutAll_split hnodes
  -- The routine at the same position belongs to the declaration.
  have hlength := length_declarations hdecls
  have hlt : earlier.length < image.routines.length := by
    rw [← hlength, hnodes]
    simp
  have hsplit : image.routines = image.routines.take earlier.length ++
      image.routines[earlier.length] :: image.routines.drop (earlier.length + 1) := by simp
  generalize image.routines[earlier.length] = r at hsplit
  have hdecls' := hdecls
  rw [hsplit, hnodes] at hdecls'
  obtain ⟨earlier', returns, body', later', hnodes', hearlier, -, -, hr⟩ :=
    declarations_split hdecls'
  have htake : (image.routines.take earlier.length).length = earlier.length := by
    rw [List.length_take]
    omega
  obtain ⟨rfl, heq⟩ := List.append_inj hnodes' (hearlier.trans htake).symm
  obtain ⟨hnode, rfl⟩ := List.cons.inj heq
  obtain ⟨hname, rfl, rfl⟩ := Node.function.inj hnode
  obtain ⟨signature, hsignature', hparams, hcompiled⟩ := hr.params
  rw [← hname, hsignature, Option.some.injEq] at hsignature'
  subst hsignature'
  obtain rfl : r.entry = e := by
    have := hr.entry
    rw [← hname, hentry] at this
    exact (Option.some.inj this).symm
  rw [length_prologue hr.opening] at hcompiled
  refine ⟨body, table, r.opening, r.body, hbody, htable, hparams, hr.opening, hcompiled, ?_⟩
  rw [← hr.closing]
  exact Program.holds_routine hcompile hfills hsplit

theorem Source.Lays.linked (h : s.Lays p) (hcompile : p.compile = .ok image)
    (hfills : image.Fills code) (hsize : code.size < 2147483648)
    (hdecls : Compile.declarations p intrinsics routinesBase p.declarations =
      .ok (entries, image.routines)) : Linked s p code entries := by
  obtain ⟨-, -, -, hinput, houtput⟩ := Program.holds_front hcompile hfills
  refine ⟨hsize, fun e he => ?_, fun e he => ?_, fun name f e hf he =>
    h.hosted hcompile hfills hdecls hf he⟩
  · rw [← image.entry?_eq_get? hdecls] at he
    cases he
    exact ⟨rfl, hinput⟩
  · rw [← image.entry?_eq_get? hdecls] at he
    cases he
    exact ⟨rfl, houtput⟩

end Linking

section Start

variable {s : Source} {p : Program} {code : Code} {entries : NameMap Entry} {input : List Word}

/-- The view when the prelude is over. -/
def View.begun (v : View) (size : Nat) : View :=
  ((v.set .gp (Word.low 1023)).poke 0 0).set .sp (Word.low (1023 - size))

theorem Machine.view_start (input : List Word) :
    (start input).view = ⟨fun _ => 0, fun a => if a = 0 then 1023 else 0, input, []⟩ := by
  refine View.ext (funext fun r => ?_) (funext fun a => ?_) rfl rfl
  · simp [view, start, get]
  · simp only [view, start]
    by_cases ha : a < 1024
    · rw [dif_pos ha, Vector.getElem_set, Vector.getElem_replicate]
      by_cases h : a = 0
      · rw [if_pos h.symm, if_pos h]
      · rw [if_neg (Ne.symm h), if_neg h]
    · rw [dif_neg ha, if_neg (by omega)]

/-- The prelude sets up the registers of the global scope and of the stack. -/
theorem Meets.prelude {α : Type} {r : Except Stop α} {Q : α → View → Prop} {globals : Size}
    {ops : List Operation} (hsize : code.size < 2147483648)
    (hops : Compile.preamble globals = .ok ops) (hcode : code.Holds 0 ops)
    (hglobals : globals.toNat ≤ 1023)
    (h : Meets code r Q (((Machine.start input).view.begun globals.toNat).goto 3)) :
    Meets code r Q (Machine.start input).view := by
  simp only [Compile.preamble, bind_eq_ok, pure_eq_ok] at hops
  obtain ⟨displacement, hneg, rfl⟩ := hops
  rw [Word.neg, Word.exact_eq_ok_iff, Size.toInt_low (by omega)] at hneg
  have hpc : (Machine.start input).view.get .pc = Word.low 0 := by
    rw [Machine.view_start]
    rfl
  rw [← View.goto_self hpc, Machine.view_start]
  rw [Machine.view_start] at h
  have haddress : (0 : Word).add 0 = .ok (Word.low 0) := rfl
  refine .step (View.steps_ld hsize (hcode 0 _ rfl) (by decide) (by decide) haddress (by decide)) ?_
  refine .step (View.steps_st hsize (hcode 1 _ rfl) (by decide) (by decide) haddress (by decide)) ?_
  have hdown : displacement.add (Word.low 1023) = .ok (Word.low (1023 - globals.toNat)) :=
    Word.add_low _ hneg (by decide) (by omega) (by omega)
  exact .step (View.steps_lda hsize (hcode 2 _ rfl) (by decide) (by decide) hdown) h

theorem Source.Lays.matches (h : s.Lays p) (hsize : Item.extent s.globals ≤ 1023) :
    Matches (.ofItems 0 s.globals) p.globals [] [] (cellsBelow 1023 (Item.extent s.globals))
      (1023 - Item.extent s.globals) (1023 - Item.extent s.globals)
      ⟨List.replicate (Item.extent s.globals) (some 0), input, []⟩
      ((Machine.start input).view.begun (Item.extent s.globals)) := by
  rw [Machine.view_start]
  refine ⟨rfl, rfl, rfl, Nat.le_refl _, by omega, ⟨by simp, fun i a w _ hw => ?_, rfl, rfl⟩,
    nodup_cellsBelow hsize, fun a ha => ?_, fun _ _ hb => (nomatch hb), fun name b hb => ?_⟩
  · obtain ⟨-, rfl⟩ : i < Item.extent s.globals ∧ 0 = w := by
      simpa [List.getElem?_replicate] using hw
    simp only [View.begun, View.mem_set, View.mem_poke]
    split <;> rfl
  · have := mem_cellsBelow hsize ha
    omega
  · obtain ⟨hscope, -⟩ := Table.declareAll_items (by decide) h.globals
    obtain ⟨-, hslot⟩ := (Table.lookup_declareAll (by decide) h.globals 0 name).1 b hb
    have hbase : p.globals.scope.Based .gp := by
      rw [hscope]
      exact .global
    exact hslot.placed hbase List.length_nil.symm (by simpa [Table.new] using hsize) (by decide)

/-- The machine comes to the halt instruction with the output of the program. -/
theorem Source.Lays.meets (h : s.Lays p) {image : Image} (hcompile : p.compile = .ok image)
    (hfills : image.Fills code) (hsize : code.size < 2147483648) (fuel : Nat) :
    Meets code (s.run fuel input) (fun output v => v.get .pc = Word.low 8 ∧ v.output = output)
      (Machine.start input).view := by
  obtain ⟨hprelude, entries, hdecls, hmain⟩ := Program.compile_eq_ok hcompile
  obtain ⟨hprelude', hcall, -⟩ := Program.holds_front hcompile hfills
  have hextent : p.globals.size.toNat = Item.extent s.globals := by
    rw [(Table.declareAll_items (by decide) h.globals).2]
    exact Nat.zero_add _
  have hlinked := h.linked hcompile hfills hsize hdecls
  have hwithin : Env.Within ⟨p.functions, entries, []⟩ entries := fun _ _ he => he
  rw [Source.run]
  refine .need fun hneed => .prelude hsize hprelude hprelude' (hextent ▸ hneed) ?_
  rw [hextent]
  refine ((hlinked.simulates _).invoke hwithin (Compile.get?_of_entry hmain) rfl hcall
    (h.matches hneed) (Nat.le_refl _)).bind ?_
  rintro ⟨result, σ⟩ v - hv
  exact .ok ⟨hv.pc, hv.agrees.output⟩

end Start

theorem Reaches.exists_runs {code : Code} {Q : View → Prop} {T : Trap → Prop} {m : Machine}
    (h : Reaches code Q T m) : ∃ n m', Machine.Runs code n m m' ∧
      (Q m'.view ∨ (∃ t, m'.step code = .error t ∧ T t) ∨ m'.Oversteps code) := by
  induction h with
  | here h => exact ⟨0, _, .refl _, .inl h⟩
  | next hstep _ ih =>
    obtain ⟨n, m', hruns, hm'⟩ := ih
    exact ⟨n + 1, m', .step hstep hruns, hm'⟩
  | trap hstep h => exact ⟨0, _, .refl _, .inr (.inl ⟨_, hstep, h⟩)⟩
  | overstep h => exact ⟨0, _, .refl _, .inr (.inr h)⟩

namespace Code

/-- Some state of the run loads a constant with an unused effective address that does not fit a
word. -/
def Oversteps (code : Code) (input : List Word) : Prop :=
  ∃ n m, Machine.Runs code n (.start input) m ∧ m.Oversteps code

theorem Oversteps.ends {code : Code} {input : List Word} (h : code.Oversteps input) :
    ∃ n, (Machine.start input).Ends code n (.error (.overflow .add)) := by
  obtain ⟨n, m, hruns, hover⟩ := h
  exact ⟨n, hruns.ends (Machine.ends_of_error hover.step)⟩

end Code

/-- The machine's outcome is the interpreter's result. -/
def Outcome : Except Stop (List Word) → Except Trap Machine → Prop
  | .ok output, .ok m => m.output.toList = output
  | .error e, .error t => e.Shows t
  | _, _ => False

theorem Outcome.ne_overflow {r : Except Stop (List Word)}
    (h : Outcome r (.error (.overflow .add))) : False := by
  cases r with
  | ok output => exact h
  | error e =>
    cases e with
    | divisionByZero =>
      obtain ⟨_, h⟩ := h
      cases h
    | quotientOverflow | inputExhausted => cases h
    | _ => exact h

theorem Machine.step_halt {code : Code} {m : Machine} {a : Nat}
    (hpc : m.get .pc = Word.low a) (ha : a + 1 < 2147483648) (hcode : code.Holds a Compile.halt) :
    ∃ m', m.step code = .ok (.halted m') ∧ m'.output = m.output := by
  refine ⟨m.set .pc (Word.low (a + 1)), ?_, rfl⟩
  rw [step_eq hpc ha (hcode 0 _ rfl)]
  rfl

namespace Source

/-- Generated code has the outcome that its program means, whatever the program, its input and the
time that its run takes. The one thing that can come in between is an effective address which
nothing uses and which does not fit a word. No result of a well-typed program is left out for its
types. -/
theorem Lays.outcome_of_generate {s : Source} {p : Program} {trace : Bool} {code : Code}
    (h : s.Lays p) (hgenerate : p.generate trace = .ok code) (hsize : code.size < 2147483648)
    (fuel : Nat) (input : List Word) :
    (s.WellTyped → s.run fuel input ≠ .error .illTyped) ∧
    ((∀ e, s.run fuel input = .error e → e.shown = true) →
      ∃ n r, (Machine.start input).Ends code n r ∧
        (Outcome (s.run fuel input) r ↔ ¬ code.Oversteps input) ∧
        (code.Oversteps input → r = .error (.overflow .add))) := by
  refine ⟨fun hs => hs.run_ne_illTyped fuel input, fun hshown => ?_⟩
  have hfollows := p.generate_follows trace
  rw [hgenerate] at hfollows
  obtain ⟨image, hcompile, hfills⟩ := hfollows
  obtain ⟨-, -, hhalt, -⟩ := Program.holds_front hcompile hfills
  -- An outcome settles the question either way, because there is only one.
  suffices hends : ∃ n r, (Machine.start input).Ends code n r ∧
      (Outcome (s.run fuel input) r ∨ code.Oversteps input) by
    obtain ⟨n, r, hends, hr⟩ := hends
    have hoverflow : code.Oversteps input → r = .error (.overflow .add) := by
      intro hover
      obtain ⟨n', hends'⟩ := hover.ends
      exact hends.unique hends'
    refine ⟨n, r, hends, ⟨fun houtcome hover => ?_, hr.resolve_right⟩, hoverflow⟩
    rw [hoverflow hover] at houtcome
    exact houtcome.ne_overflow
  have hmeets := h.meets hcompile hfills hsize fuel (.start input) rfl
  cases hrun : s.run fuel input with
  | ok output =>
    rw [hrun] at hmeets
    obtain ⟨n, m, hruns, ⟨hpc, houtput⟩ | ⟨t, -, hfalse⟩ | hover⟩ := hmeets.exists_runs
    · obtain ⟨m', hstep, hsame⟩ := Machine.step_halt hpc (by decide) hhalt
      refine ⟨n, .ok m', hruns.ends (Machine.ends_of_halted hstep), .inl ?_⟩
      exact (congrArg Array.toList hsame).trans houtput
    · exact hfalse.elim
    · exact ⟨n, _, hruns.ends (Machine.ends_of_error hover.step), .inr ⟨n, m, hruns, hover⟩⟩
  | error e =>
    rw [hrun] at hmeets
    obtain ⟨n, m, hruns, hfalse | ⟨t, hstep, ht⟩ | hover⟩ :=
      (hmeets (hshown e hrun)).exists_runs
    · exact hfalse.elim
    · exact ⟨n, _, hruns.ends (Machine.ends_of_error hstep), .inl ht⟩
    · exact ⟨n, _, hruns.ends (Machine.ends_of_error hover.step), .inr ⟨n, m, hruns, hover⟩⟩

/-- Fills an array with the input by recursion, and prints its last element and the sum of all. -/
def tally : Source where
  globals := [.int "total"]
  functions := [
    ⟨"fill", [("a", .array), ("n", .int)], .void,
      .branch (.binary .greaterThan (.var "n") (.number 0))
        (.block (some [.int "m"]) [
          .expression (.assign (.var "m") (.binary .sub (.var "n") (.number 1))),
          .expression (.call "fill" [.var "a", .var "m"]),
          .expression (.assign (.element "a" (.var "m")) (.call "input" [])),
          .expression (.assign (.var "total")
            (.binary .add (.var "total") (.element "a" (.var "m"))))])
        none⟩,
    ⟨"main", [], .void, .block (some [.array "v" 3]) [
      .expression (.call "fill" [.var "v", .number 3]),
      .expression (.call "output" [.element "v" (.number 2)]),
      .expression (.call "output" [.var "total"])]⟩]

theorem tally_outcome :
    ∃ p code, tally.Lays p ∧ p.generate false = .ok code ∧ code.size < 2147483648 ∧
      tally.run 100 [5, 6, 7] = .ok [7, 18] ∧
      ∃ n r, (Machine.start [5, 6, 7]).Ends code n r ∧
        (Outcome (.ok [7, 18]) r ↔ ¬ code.Oversteps [5, 6, 7]) ∧
        (code.Oversteps [5, 6, 7] → r = .error (.overflow .add)) := by
  let fill : Table := ⟨.param, 2,
    (NameMap.empty.insert "a" ⟨.param, .array, 0⟩).insert "n" ⟨.param, .int, 1⟩⟩
  let p : Program := ⟨⟨.global, 1, NameMap.empty.insert "total" ⟨.global, .int, 0⟩⟩,
    (NameMap.empty.insert "fill" ⟨.void, fill⟩).insert "main" ⟨.void, .new .param⟩,
    (Function.layoutAll tally.functions).toOption.getD []⟩
  have hlays : tally.Lays p := by
    refine ⟨rfl, fun f hf => ?_, rfl⟩
    rcases List.mem_cons.1 hf with rfl | hf
    · exact ⟨fill, rfl, by decide +kernel⟩
    · cases List.mem_singleton.1 hf
      exact ⟨.new .param, rfl, by decide +kernel⟩
  have hsize : (p.generate false).toOption.any (fun code => code.size < 2147483648) = true := by
    decide +kernel
  have hrun : tally.run 100 [5, 6, 7] = .ok [7, 18] := eq_ok_of_toOption (by decide +kernel)
  cases hcode : p.generate false with
  | error e =>
    rw [hcode] at hsize
    cases hsize
  | ok code =>
    rw [hcode, Except.toOption, Option.any_some, decide_eq_true_iff] at hsize
    have houtcome := (hlays.outcome_of_generate hcode hsize 100 [5, 6, 7]).2
    rw [hrun] at houtcome
    exact ⟨p, code, hlays, hcode, hsize, hrun, houtcome fun _ he => (nomatch he)⟩

/-- The trap in which a run ends. -/
def trap? : Except Trap Machine → Option Trap
  | .ok _ => none
  | .error t => some t

theorem eq_error_of_trap? {r : Except Trap Machine} {t : Trap} (h : trap? r = some t) :
    r = .error t := by
  cases r with
  | ok m => cases h
  | error e =>
    cases h
    rfl

/-- Prints the greatest word. -/
def greatest : Source where
  globals := []
  functions := [⟨"main", [], .void, .expression (.call "output" [.number 2147483647])⟩]

/-- The argument is loaded while `ax` still holds the return address of `main`. -/
theorem greatest_overflow :
    ∃ p code, greatest.WellTyped ∧ greatest.Lays p ∧ p.generate false = .ok code ∧
      code.size < 2147483648 ∧ greatest.run 10 [] = .ok [2147483647] ∧
      code.run [] = .error (.overflow .add) := by
  let p : Program := ⟨.new .global, NameMap.empty.insert "main" ⟨.void, .new .param⟩,
    [.function "main" .void (.call "output" [.number 2147483647])]⟩
  have htyped : greatest.WellTyped := by
    refine ⟨fun f hf => ?_, .void, rfl⟩
    cases List.mem_singleton.1 hf
    exact .call rfl (.int (.number _) .nil)
  have hlays : greatest.Lays p := by
    refine ⟨rfl, fun f hf => ?_, rfl⟩
    cases List.mem_singleton.1 hf
    exact ⟨.new .param, rfl, by decide +kernel⟩
  have hfails : (p.generate false).toOption.any (fun code => code.size < 2147483648 &&
      trap? (code.run []) = some (.overflow .add)) = true := by decide +kernel
  cases hcode : p.generate false with
  | error e =>
    rw [hcode] at hfails
    cases hfails
  | ok code =>
    rw [hcode, Except.toOption, Option.any_some, Bool.and_eq_true, decide_eq_true_iff,
      decide_eq_true_iff] at hfails
    obtain ⟨hsize, htrap⟩ := hfails
    exact ⟨p, code, htyped, hlays, hcode, hsize, eq_ok_of_toOption (by decide +kernel),
      eq_error_of_trap? htrap⟩

end Source

end CMinus

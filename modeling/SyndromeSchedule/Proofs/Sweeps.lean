import SyndromeSchedule.Proofs.Succession

/-!
The standard order on the rotated lattice. Checks of X sweep row by row and checks of Z column by
column, so wherever two checks of different letters and different anchors overlap, the same one of
them comes first on all qubits they share. Checks that commute share an even number of qubits, and
so the number of those on which the first comes first is even too.
-/

namespace SyndromeSchedule

open List Outcome

namespace Check

/-- Data qubits of two checks. -/
def shared (a b : Check) : List Qubit := a.qubits.filter b.actsOn

/-- A check made around an anchor, or of letters around its ancilla. -/
def Anchored (c : Check) : Prop :=
  (∃ anchor operators, around anchor operators c.ancilla = .ok c) ∨
    ∃ letters, ofLetters letters c.ancilla = .ok c

lemma offset_of_around {c : Check} {anchor : Coordinates} {operators : List (Qubit × Operator)}
    {ancilla : Option Qubit} (made : around anchor operators ancilla = .ok c) :
    c.anchor = some anchor ∧ ∀ m ∈ c.members, m.qubit.difference anchor = some m.offset := by
  obtain ⟨members, listed, made⟩ := of_bind made
  have made := Outcome.ofExcept_eq_ok.mp made
  unfold make at made
  split at made
  · cases made
  · cases made
    refine ⟨rfl, fun m mem => ?_⟩
    obtain ⟨e, _, found⟩ := exists_left_of_forall₂ (mapM_eq_ok.mp listed) mem
    simp only [memberAround] at found
    split at found
    · cases found
    · next offset difference =>
      split_ifs at found
      · cases found
        exact difference
      · cases found

lemma Anchored.offset {c : Check} (h : c.Anchored) : ∃ anchor, c.anchor = some anchor ∧
      ∀ m ∈ c.members, m.qubit.difference anchor = some m.offset := by
  rcases h with ⟨anchor, operators, made⟩ | ⟨letters, made⟩
  · exact ⟨anchor, offset_of_around made⟩
  · unfold ofLetters at made
    split at made
    · cases made
    · next anchor _ => exact ⟨anchor, offset_of_around made⟩

lemma clashes_of_pure {x z : Check} (hx : x.pureLetter? = some .X)
    (hz : z.pureLetter? = some .Z) : x.clashes z = x.shared z := by
  refine filter_congr fun q acts => ?_
  cases acted : z.actsOn q with
  | false => rfl
  | true =>
    obtain ⟨m, mem, rfl⟩ := mem_map.mp acts
    obtain ⟨n, member', same⟩ := mem_map.mp ((z.actsOn_iff _).mp acted)
    have letter : z.product.letter m.qubit = .Z := by
      rw [← same, z.letter_product member', pureLetter?_eq_some_iff.mp hz _ member']
    rw [x.letter_product mem, pureLetter?_eq_some_iff.mp hx _ mem, letter]
    rfl

end Check

namespace Order

lemma puts_standard {m : Member} {n : Nat} (put : standard.Puts m n) :
    ∃ u v : Int, m.offset = ⟨[u, v]⟩ ∧ (u = 1 ∨ u = -1) ∧ (v = 1 ∨ v = -1) ∧
      (m.operator.letter = .X → 2 * (n : Int) = 2 * v + u + 3) ∧
      (m.operator.letter = .Z → 2 * (n : Int) = 2 * u + v + 3) := by
  obtain ⟨slot, found, rfl⟩ := Option.map_eq_some_iff.mp put
  have alike := find?_some found
  simp only [Bool.and_eq_true, decide_eq_true_eq] at alike
  rw [← alike.1, ← alike.2]
  have mem := mem_of_find?_eq_some found
  simp only [mem_cons, not_mem_nil, or_false] at mem
  rcases mem with rfl | rfl | rfl | rfl | rfl | rfl | rfl | rfl
  all_goals exact ⟨_, _, rfl, by decide, by decide, by decide, by decide⟩

lemma neighbour {m : Member} {n : Nat} {anchor : Coordinates} (put : standard.Puts m n)
    (offset : m.qubit.difference anchor = some m.offset) :
    ∃ x y u v : Int, anchor = ⟨[x, y]⟩ ∧ m.qubit = ⟨[x + u, y + v]⟩ ∧
      (u = 1 ∨ u = -1) ∧ (v = 1 ∨ v = -1) ∧
      (m.operator.letter = .X → 2 * (n : Int) = 2 * v + u + 3) ∧
      (m.operator.letter = .Z → 2 * (n : Int) = 2 * u + v + 3) := by
  obtain ⟨u, v, diagonal, known⟩ := puts_standard put
  rw [diagonal] at offset
  obtain ⟨_, qubit, _⟩ := m
  obtain ⟨origin⟩ := anchor
  obtain ⟨place⟩ := qubit
  unfold Coordinates.difference at offset
  split_ifs at offset with length
  have values := congrArg Coordinates.values (Option.some.inj offset)
  have two : origin.length = 2 := by
    have sizes := congrArg List.length values
    rwa [length_zipWith, length, Nat.min_self] at sizes
  obtain ⟨x, y, rfl⟩ := length_eq_two.mp two
  obtain ⟨a, b, rfl⟩ := length_eq_two.mp (length.trans two)
  simp only [zipWith_cons_cons, zipWith_nil_left, cons.injEq, and_true] at values
  refine ⟨x, y, u, v, rfl, ?_, known⟩
  simp only [Coordinates.mk.injEq, cons.injEq, and_true]
  omega

/-- Directions that lead from two places to two others, the same way both times, are in the same
order in rows as in columns. -/
theorem sweep_iff {u v u' v' r s r' s' : Int} (hu : u = 1 ∨ u = -1) (hv : v = 1 ∨ v = -1)
    (hu' : u' = 1 ∨ u' = -1) (hv' : v' = 1 ∨ v' = -1) (hr : r = 1 ∨ r = -1)
    (hs : s = 1 ∨ s = -1) (hr' : r' = 1 ∨ r' = -1) (hs' : s' = 1 ∨ s' = -1)
    (across : u - u' = r - r') (down : v - v' = s - s') (apart : u ≠ u' ∨ v ≠ v') :
    2 * v + u < 2 * u' + v' ↔ 2 * s + r < 2 * r' + s' := by
  rcases hu with rfl | rfl <;> rcases hu' with rfl | rfl <;> rcases hv with rfl | rfl <;>
    rcases hv' with rfl | rfl <;> omega

lemma first_iff {a b : Coordinates} {x z x' z' : Member} {i j k l : Nat} (apart : a ≠ b)
    (hx : x.operator.letter = .X ∧ x.qubit.difference a = some x.offset ∧ standard.Puts x i)
    (hz : z.operator.letter = .Z ∧ z.qubit.difference b = some z.offset ∧ standard.Puts z j)
    (hx' : x'.operator.letter = .X ∧ x'.qubit.difference a = some x'.offset ∧ standard.Puts x' k)
    (hz' : z'.operator.letter = .Z ∧ z'.qubit.difference b = some z'.offset ∧ standard.Puts z' l)
    (same : x.qubit = z.qubit) (same' : x'.qubit = z'.qubit) : i < j ↔ k < l := by
  obtain ⟨_, _, u, v, rfl, here, hu, hv, slot, -⟩ := neighbour hx.2.2 hx.2.1
  obtain ⟨_, _, u', v', rfl, there, hu', hv', -, slot'⟩ := neighbour hz.2.2 hz.2.1
  obtain ⟨_, _, r, s, first, here', hr, hs, later, -⟩ := neighbour hx'.2.2 hx'.2.1
  obtain ⟨_, _, r', s', second, there', hr', hs', -, later'⟩ := neighbour hz'.2.2 hz'.2.1
  rw [here, there] at same
  rw [here', there'] at same'
  simp only [Coordinates.mk.injEq, cons.injEq, and_true, ne_eq] at apart first second same same'
  have agree := sweep_iff hu hv hu' hv' hr hs hr' hs' (by omega) (by omega) (by omega)
  have known := slot hx.1
  have known' := slot' hz.1
  have known₂ := later hx'.1
  have known₂' := later' hz'.1
  clear hu hv hu' hv' hr hs hr' hs' apart
  omega

end Order

lemma Task.Extracts.puts {task : Task} {round : Nat} {e : Extracted} {q : Qubit}
    (h : task.Extracts round e) (acted : q ∈ e.check.qubits) :
    ∃ m ∈ e.check.members, m.qubit = q ∧ task.compiler.extractor.order.Puts m (e.slotOf q) := by
  obtain ⟨⟨slots, put, perm, related⟩, _⟩ :=
    (task.compiler.extractor.plan_meets e.check).of_ok h.plan
  obtain ⟨⟨n, i⟩, inside, rfl⟩ := Extracted.exists_interaction h.follows acted
  obtain ⟨bound, here⟩ := List.getElem?_eq_some_iff.mp (Extracted.mem_interactions.mp inside)
  obtain ⟨length, each⟩ := forall₂_iff_get.mp related
  have room : n < slots.length := length ▸ bound
  have joined := each n room bound
  rw [get_eq_getElem, get_eq_getElem, here] at joined
  rw [Extracted.slotOf_data h.follows inside]
  cases slot : slots[n] with
  | none => rw [slot] at joined; cases joined
  | some m =>
    rw [slot] at joined
    cases joined with
    | some joins =>
      have found : slots[n]? = some (some m) := List.getElem?_eq_some_iff.mpr ⟨room, slot⟩
      refine ⟨m, perm.mem_iff.mp ?_, joins.data.symm, put n m found⟩
      exact mem_filterMap.mpr ⟨_, mem_of_getElem? found, rfl⟩

namespace Session

variable {task : Task} {s next : Session} {es : List Extracted} {start t : Nat}
  {openings : List (Extracted × Nat × Nat)} {closings : List (Extracted × Move)}
  {reads : List Move} {e : Extracted} {q : Qubit}

/-- An ancilla meets a qubit in the slot of that qubit and at no other time. -/
lemma FillsRound.meetsIn_iff (fills : s.FillsRound task es start openings closings reads)
    (compatible : Extracted.Compatible task.code es)
    (lays : s.LaysMoves (roundMoves es start openings closings reads) next)
    (mem : e ∈ es) (extracts : task.Extracts s.rounds e) (acted : q ∈ e.check.qubits) :
    s.meetsIn next e.ancilla q t = true ↔ t = start + e.slotOf q * Extracted.stride es := by
  obtain ⟨times, last, _, there, life⟩ := fills.addedIn_life compatible lays mem
  obtain ⟨step, inside, rfl⟩ := Extracted.exists_interaction extracts.follows acted
  have other : step.2.data ∉ [e.ancilla] := by
    intro same
    have bare := compatible.ancilla e mem
    rw [← mem_singleton.mp same, compatible.data e mem step inside] at bare
    cases bare
  rw [meetsIn, ← any_filter, life, any_map, any_eq_true]
  constructor
  · rintro ⟨m, known, acts⟩
    obtain ⟨known, here⟩ := mem_filter.mp known
    have acts : step.2.data ∈ m.qubits := of_decide_eq_true acts
    rw [← of_decide_eq_true here]
    rcases mem_lifeMoves.mp known with opening | ⟨step', inside', rfl⟩ | rfl
    · rw [(mem_openingMoves opening).1] at acts
      exact absurd acts other
    · have data : step.2.data = step'.2.data := by
        simp only [mem_singleton] at other
        unfold slotMove at acts
        split_ifs at acts <;> simpa [other] using acts
      rw [data, Extracted.slotOf_data extracts.follows inside']
      rfl
    · rw [(fills.closes _ there).qubits] at acts
      exact absurd acts other
  · rintro rfl
    rw [Extracted.slotOf_data extracts.follows inside]
    refine ⟨slotMove (Extracted.stride es) start e step,
      mem_filter.mpr ⟨?_, by simp [slotMove]⟩, ?_⟩
    · exact mem_lifeMoves.mpr (.inr (.inl ⟨step, inside, rfl⟩))
    · simp only [Function.comp_apply, Move.application, slotMove]
      split_ifs <;> simp

/-- In the standard order, X comes before Z on an even number of shared qubits. -/
lemma RaisesFloors.sweeps (raises : s.RaisesFloors task next)
    (standard : task.compiler.extractor.order = .standard) {x z : Check} {a b : Qubit}
    (hx : x ∈ task.code.checksIn s.rounds) (hz : z ∈ task.code.checksIn s.rounds)
    (onA : x.ancilla = some a) (onB : z.ancilla = some b) (pureX : x.pureLetter? = some .X)
    (pureZ : z.pureLetter? = some .Z) (madeX : x.Anchored) (madeZ : z.Anchored)
    (apart : x.anchor ≠ z.anchor) (commute : x.commutes z = true) :
    ∃ atX atZ : Qubit → Nat, (∀ q ∈ x.shared z, atX q ≠ atZ q ∧
        ∀ t, (s.meetsIn next a q t = true ↔ t = atX q) ∧
          (s.meetsIn next b q t = true ↔ t = atZ q)) ∧
      Even ((x.shared z).filter fun q => atX q < atZ q).length := by
  obtain ⟨es, start, openings, closings, reads, extracts, compatible, fills, lays⟩ := raises.round
  obtain ⟨checks, each⟩ := Task.extractRound_eq_ok extracts
  have listed : ∀ {c : Check} {ancilla : Qubit}, c ∈ task.code.checksIn s.rounds →
      c.ancilla = some ancilla → ∃ e ∈ es, e.check = c ∧ e.ancilla = ancilla := by
    intro c ancilla scheduled has
    have inside : c ∈ es.map (·.check) := by
      rw [checks]
      exact mem_filter.mpr ⟨scheduled, by simp [has]⟩
    obtain ⟨e, mem, rfl⟩ := mem_map.mp inside
    exact ⟨e, mem, rfl, Option.some.inj ((each e mem).ancilla.symm.trans has)⟩
  obtain ⟨e, he, rfl, rfl⟩ := listed hx onA
  obtain ⟨f, hf, rfl, rfl⟩ := listed hz onB
  have both : ∀ q ∈ e.check.shared f.check, q ∈ e.check.qubits ∧ q ∈ f.check.qubits :=
    fun q mem => ⟨mem_of_mem_filter mem, (f.check.actsOn_iff q).mp (of_mem_filter mem)⟩
  have slots : ∀ q ∈ e.check.shared f.check, e.slotOf q ≠ f.slotOf q := by
    have different : e ≠ f := by
      rintro rfl
      cases pureX.symm.trans pureZ
    have pairs := compatible.slots_ne fun e mem => (each e mem).follows
    have apart := List.Pairwise.forall_of_forall_of_flip (R := fun e f : Extracted => e ≠ f →
        ∀ q ∈ e.check.qubits, q ∈ f.check.qubits → e.slotOf q ≠ f.slotOf q)
      (fun _ _ different => absurd rfl different) (pairs.imp fun h _ => h.2)
      (pairs.imp fun h _ q acted acted' => (h.2 q acted' acted).symm) he hf different
    exact fun q mem => apart q (both q mem).1 (both q mem).2
  obtain ⟨anchorX, onX, offsetX⟩ := madeX.offset
  obtain ⟨anchorZ, onZ, offsetZ⟩ := madeZ.offset
  have anchors : anchorX ≠ anchorZ := fun same => apart (by rw [onX, onZ, same])
  have first : ∀ q ∈ e.check.shared f.check, ∀ q' ∈ e.check.shared f.check,
      (e.slotOf q < f.slotOf q ↔ e.slotOf q' < f.slotOf q') := by
    intro q mem q' member'
    obtain ⟨m, hm, rfl, putM⟩ := (each e he).puts (both q mem).1
    obtain ⟨n, hn, same, putN⟩ := (each f hf).puts (both _ mem).2
    obtain ⟨m', hm', rfl, putM'⟩ := (each e he).puts (both q' member').1
    obtain ⟨n', hn', same', putN'⟩ := (each f hf).puts (both _ member').2
    rw [standard] at putM putN putM' putN'
    exact Order.first_iff anchors ⟨Check.pureLetter?_eq_some_iff.mp pureX _ hm, offsetX m hm, putM⟩
      ⟨Check.pureLetter?_eq_some_iff.mp pureZ _ hn, offsetZ n hn, putN⟩
      ⟨Check.pureLetter?_eq_some_iff.mp pureX _ hm', offsetX m' hm', putM'⟩
      ⟨Check.pureLetter?_eq_some_iff.mp pureZ _ hn', offsetZ n' hn', putN'⟩ same.symm same'.symm
  have pos := stride_pos es
  refine ⟨fun q => start + e.slotOf q * Extracted.stride es,
    fun q => start + f.slotOf q * Extracted.stride es, ?_, ?_⟩
  · intro q mem
    refine ⟨fun same => slots q mem ?_, fun t => ⟨?_, ?_⟩⟩
    · exact Nat.eq_of_mul_eq_mul_right pos (add_left_cancel same)
    · exact fills.meetsIn_iff compatible lays he (each e he) (both q mem).1
    · exact fills.meetsIn_iff compatible lays hf (each f hf) (both q mem).2
  · have even : Even (e.check.shared f.check).length := by
      rw [← Check.clashes_of_pure pureX pureZ]
      exact (Check.commutes_iff _ _).mp commute
    simp only [Nat.add_lt_add_iff_left, Nat.mul_lt_mul_right pos]
    -- All shared qubits agree on who comes first: the filter keeps them all or none.
    by_cases any : ∃ q ∈ e.check.shared f.check, e.slotOf q < f.slotOf q
    · obtain ⟨q, mem, early⟩ := any
      rwa [filter_eq_self.mpr fun q' member' =>
        decide_eq_true ((first q mem q' member').mp early)]
    · rw [filter_eq_nil_iff.mpr fun q mem early =>
        any ⟨q, mem, of_decide_eq_true early⟩]
      exact ⟨0, rfl⟩

end Session

open Session in
/-- In the standard order a check of X and a check of Z that commute never meet a data qubit at
once, and the first meets an even number of those they share before the second does. -/
theorem Compiler.sweeps_compatible {c : Compiler} {code : Code} {request : Request}
    {result : Compilation} (run : c.compile code request = .ok result)
    (standard : c.extractor.order = .standard) :
    ∃ (prepared layered ended : Session) (stages : List (Session × Session)),
      (⟨c, code, request⟩ : Task).Runs result prepared layered ended ∧
      Stages ⟨c, code, request⟩ prepared stages layered ∧
      stages.map (·.1.rounds) = List.range result.report.rounds ∧
      ∀ stage ∈ stages, ∀ x ∈ code.checksIn stage.1.rounds, ∀ z ∈ code.checksIn stage.1.rounds,
        ∀ a b, x.ancilla = some a → z.ancilla = some b →
          x.pureLetter? = some .X → z.pureLetter? = some .Z → x.Anchored → z.Anchored →
          x.anchor ≠ z.anchor → x.commutes z = true →
          ∃ atX atZ : Qubit → Nat,
            (∀ q ∈ x.shared z, atX q ≠ atZ q ∧
              ∀ t, (stage.1.meetsIn stage.2 a q t = true ↔ t = atX q) ∧
                (stage.1.meetsIn stage.2 b q t = true ↔ t = atZ q)) ∧
            Even ((x.shared z).filter fun q => atX q < atZ q).length := by
  obtain ⟨prepared, layered, ended, runs⟩ := compile_eq_ok run
  obtain ⟨stages, placed⟩ := placed_stages runs.placed
  refine ⟨prepared, layered, ended, stages, runs, placed, runs.listed placed, ?_⟩
  intro stage member x hx z hz a b onA onB pureX pureZ madeX madeZ apart commute
  exact (placed.raises runs.extractable stage member).sweeps standard hx hz onA onB pureX pureZ
    madeX madeZ apart commute

namespace Lattice

/-- A check of X on the four corners of a square. -/
def face : Check :=
  ⟨[⟨⟨[-1, -1]⟩, ⟨[0, 0]⟩, .positive .X⟩, ⟨⟨[1, -1]⟩, ⟨[2, 0]⟩, .positive .X⟩,
    ⟨⟨[-1, 1]⟩, ⟨[0, 2]⟩, .positive .X⟩, ⟨⟨[1, 1]⟩, ⟨[2, 2]⟩, .positive .X⟩],
    some ⟨[1, 1]⟩, some ⟨[1, 1]⟩, by decide⟩

/-- A check of Z on the boundary of the square. -/
def edge : Check :=
  ⟨[⟨⟨[-1, -1]⟩, ⟨[2, 0]⟩, .positive .Z⟩, ⟨⟨[-1, 1]⟩, ⟨[2, 2]⟩, .positive .Z⟩],
    some ⟨[3, 1]⟩, some ⟨[3, 1]⟩, by decide⟩

def code : Code :=
  ⟨.ofList [⟨[0, 0]⟩, ⟨[2, 0]⟩, ⟨[0, 2]⟩, ⟨[2, 2]⟩], [[face, edge]], [[]], [], by decide⟩

def compiler : Compiler :=
  ⟨.noiseless, ⟨.controlledPauli, .standard⟩, {}, NoiseModel.noiseless_sound⟩

open Session in
theorem sweeps_compatible_face :
    ∃ result, compiler.compile code { layers := 2 } = .ok result ∧
      ∃ (prepared layered : Session) (stages : List (Session × Session)),
        Stages ⟨compiler, code, { layers := 2 }⟩ prepared stages layered ∧
        stages.map (·.1.rounds) = [0, 1] ∧
        ∀ stage ∈ stages, ∃ atX atZ : Qubit → Nat,
          (∀ q ∈ [⟨[2, 0]⟩, ⟨[2, 2]⟩], atX q ≠ atZ q ∧
            ∀ t, (stage.1.meetsIn stage.2 ⟨[1, 1]⟩ q t = true ↔ t = atX q) ∧
              (stage.1.meetsIn stage.2 ⟨[3, 1]⟩ q t = true ↔ t = atZ q)) ∧
          Even (([⟨[2, 0]⟩, ⟨[2, 2]⟩] : List Qubit).filter fun q => atX q < atZ q).length := by
  have report : (compiler.compile code { layers := 2 }).toOption.map (·.report.rounds) =
      some 2 := by
    decide +kernel
  obtain ⟨result, compiled, rounds⟩ := Outcome.exists_ok_of_map report
  obtain ⟨prepared, layered, _, stages, _, placed, listed, each⟩ :=
    Compiler.sweeps_compatible compiled rfl
  rw [rounds] at listed
  refine ⟨result, compiled, prepared, layered, stages, placed, listed, fun stage member => ?_⟩
  have early : stage.1.rounds ∈ List.range 2 :=
    listed ▸ List.mem_map.mpr ⟨stage, member, rfl⟩
  have both : ∀ r ∈ List.range 2, code.checksIn r = [face, edge] := by decide
  have scheduled := both _ early
  exact each stage member face (scheduled ▸ by simp) edge (scheduled ▸ by simp) _ _ rfl rfl
    (by decide) (by decide)
    (.inr ⟨[(⟨[0, 0]⟩, .X), (⟨[2, 0]⟩, .X), (⟨[0, 2]⟩, .X), (⟨[2, 2]⟩, .X)], by decide⟩)
    (.inr ⟨[(⟨[2, 0]⟩, .Z), (⟨[2, 2]⟩, .Z)], by decide⟩) (by decide) (by decide)

end Lattice

end SyndromeSchedule

import ImpCompiler.Proofs.Live.Coalescing
import ImpCompiler.Proofs.Lower.Copies
import ImpCompiler.Proofs.Machine.Places

/-!
# Proofs.Machine.Moves — the arguments of calls move for nothing

A copy of an argument is live from where it is made up to its call, in one block. Its source is
live up to the copy: behind the copy control cannot get back to it without passing the source
again, since no branch from there leads to the blocks in between (`Func.Moves`). So the two have
no number in common, and no other value is joined with either; each copy is joined with its
source and gets its place.
-/

namespace ImpCompiler

set_option autoImplicit false

namespace Func

variable {f g : Func} {b c k m n t x : Nat}

/-! ## Code that is left -/

/-- What only looks at the code of an instruction holds where there is the same code. -/
theorem instr_of_code {P : Instr → Prop} (same : g.arena[n]?.map Instr.code = f.arena[n]?.map Instr.code)
    (reads : ∀ {i j : Instr}, j.code = i.code → P i → P j) (there : ∃ i, f.arena[n]? = some i ∧ P i) :
    ∃ j, g.arena[n]? = some j ∧ P j := by
  obtain ⟨i, known, holds⟩ := there
  rw [known, Option.map_some] at same
  obtain ⟨j, known', code⟩ := Option.map_eq_some_iff.1 same
  exact ⟨j, known', reads code holds⟩

/-- Code in which a value that is copied has no other use, and copies are used in their
blocks. -/
structure Moves (f : Func) : Prop where
  ordered : ∀ b, (f.block b).instrs.Pairwise (· < ·)
  earlier : ∀ {k m : Nat}, f.UsesValue k m → m < k
  source : ∀ {n : Nat} {i : Instr}, f.arena[n]? = some i → i.op = .copy → ∃ (m : Nat) (j : Instr),
    i.args = [(m : Value)] ∧ f.arena[m]? = some j ∧ j.type = i.type
  plain : ∀ {n m}, f.CopyOf n m → ¬ f.IsCopy m
  once : ∀ {n m k}, f.CopyOf n m → f.UsesValue k m → k = n
  behind : ∀ {n k b}, f.IsCopy n → f.UsesValue k n → k ∈ (f.block b).instrs → n ∈ (f.block b).instrs
  near : ∀ {n m b t}, n ∈ f.instrs → f.CopyOf n m → f.Between m n b → f.BranchesTo t b → m < t ∧ t < n

/-- What is left of code of that kind is so too, if operands are computed before. -/
theorem Copied.moves (copied : f.Copied) (typed : f.WellTyped) (formed : g.Formed)
    (dominated : g.Dominated) (code : ∀ n : Nat, g.arena[n]?.map Instr.code = f.arena[n]?.map Instr.code)
    (part : ∀ b, (g.block b).instrs <+: (f.block b).instrs)
    (dropped : ∀ b, b ∉ g.layout → (g.block b).instrs = []) : g.Moves := by
  have isCopy : ∀ {n}, g.IsCopy n → f.IsCopy n := fun {n} =>
    instr_of_code (code n).symm fun same op => (congrArg Prod.fst same).trans op
  have uses : ∀ {k m : Nat}, g.UsesValue k m → f.UsesValue k m := fun {k m} =>
    instr_of_code (code k).symm fun {i j} same used => by
      have args : j.args = i.args := congrArg (fun q => q.2.2) same
      rwa [args]
  have copyOf : ∀ {n m}, g.CopyOf n m → f.CopyOf n m := fun {n m} =>
    instr_of_code (code n).symm fun {i j} same copy => by
      have args : j.args = i.args := congrArg (fun q => q.2.2) same
      rw [args]
      exact ⟨(congrArg Prod.fst same).trans copy.1, copy.2⟩
  have goes : ∀ {t b}, g.BranchesTo t b → f.BranchesTo t b := fun {t b} =>
    instr_of_code (code t).symm fun {i j} same goes => by
      have op : j.op = i.op := congrArg Prod.fst same
      rwa [op]
  have listed : ∀ {b n}, n ∈ (g.block b).instrs → b ∈ g.layout := by
    intro b n member
    by_contra gone
    simp [dropped b gone] at member
  constructor
  · exact fun b => (typed.ordered b).sublist (part b).sublist
  · exact fun used => typed.earlier (uses used)
  · intro n i known op
    obtain ⟨i₀, known₀, same⟩ := instr_of_code (code n).symm (P := fun j => j.code = i.code)
      Eq.trans ⟨i, known, rfl⟩
    have rule := typed.rules n i₀ known₀
    rw [show i₀.op = i.op from congrArg Prod.fst same, op,
      show i₀.type = i.type from congrArg (fun q => q.2.1) same,
      show i₀.args = i.args from congrArg (fun q => q.2.2) same] at rule
    generalize operands : i.args = args at rule
    cases rule with
    | copy value =>
      obtain ⟨m, rfl, -, j, known', -, -, type⟩ := value
      obtain ⟨j', known'', same'⟩ := instr_of_code (code m) (P := fun k => k.code = j.code)
        Eq.trans ⟨j, known', rfl⟩
      exact ⟨m, j', rfl, known'', (congrArg (fun q => q.2.1) same').trans type⟩
  · exact fun copy copy' => copied.plain (copyOf copy) (isCopy copy')
  · exact fun copy used => copied.once (copyOf copy) (uses used)
  · intro n k b copy used member
    obtain ⟨c, here, there⟩ := copied.behind (isCopy copy) (uses used)
    obtain rfl : c = b := typed.unique there ((part b).subset member)
    obtain ⟨i, known, operand⟩ := used
    obtain ⟨d, -, left⟩ := dominated.operand_block formed (listed member) member known operand
    rwa [typed.unique here ((part d).subset left)]
  · intro n m b t member copy between branch
    obtain ⟨outside, k, inside, bounds⟩ := between
    refine copied.near (copyOf copy) ⟨fun here => ?_, k, (part b).subset inside, bounds⟩ (goes branch)
    obtain ⟨c, listed', there⟩ := List.mem_flatMap.1 member
    obtain ⟨i, known, operand⟩ := copy.uses
    obtain ⟨d, -, left⟩ := dominated.operand_block formed listed' there known operand
    rw [typed.unique here ((part d).subset left)] at outside
    exact outside left

/-! ## Where sources and copies are live -/

/-- Instructions that compute a value do not need it from before. -/
theorem not_needs_of_mem {out : Value → Prop} {ns : List Nat} (order : ns.Pairwise (· < ·))
    (later : ∀ k, f.UsesValue k m → m < k) (computes : f.Computes m m) (member : m ∈ ns) :
    ¬ f.Needs out ns m := by
  induction ns with
  | nil => cases member
  | cons k ns ih =>
    obtain ⟨first, rest⟩ := List.pairwise_cons.1 order
    rintro (used | ⟨leaves, needed⟩)
    · have := later k used
      rcases List.mem_cons.1 member with rfl | inside
      · omega
      · have := first m inside
        omega
    · rcases List.mem_cons.1 member with rfl | inside
      · exact leaves computes
      · exact ih rest inside needed

namespace Moves

variable (moves : f.Moves)

include moves

/-- No block needs a copy from before. -/
theorem copy_not_liveIn (copy : f.IsCopy n) (value : f.Computes n n) :
    (n : Value) ∉ f.liveIn.getD c [] := by
  intro live
  refine liveIn_least (P := fun _ v => v ≠ (n : Value)) ?_ live rfl
  rintro b listed v needed rfl
  rcases needed.cases with ⟨c, -, other⟩ | ⟨k, member, used⟩
  · exact other rfl
  · exact not_needs_of_mem (moves.ordered b) (fun k => moves.earlier) value
      (moves.behind copy used member) needed

/-- A copy is live behind instructions of its block only, from where it is made. -/
theorem copy_live (copy : f.IsCopy n) (value : f.Computes n n) {before rest : List Nat}
    (whole : (f.block b).instrs = before ++ x :: rest)
    (needed : f.Needs (· ∈ f.liveOut f.liveIn b) rest n) : n ∈ (f.block b).instrs ∧ n ≤ x := by
  rcases needed.cases with out | ⟨k, member, used⟩
  · obtain ⟨c, -, live⟩ := mem_liveOut.1 out
    exact absurd live (moves.copy_not_liveIn copy value)
  · have here := moves.behind copy used (b := b) (by simp [whole, member])
    refine ⟨here, ?_⟩
    have order := moves.ordered b
    rw [whole] at order here
    obtain ⟨-, order, earlier⟩ := List.pairwise_append.1 order
    rcases List.mem_append.1 here with inside | atOrBehind
    · exact (earlier n inside x (by simp)).le
    · rcases List.mem_cons.1 atOrBehind with rfl | inside
      · exact Nat.le_refl _
      · exact absurd needed (not_needs_of_mem (List.pairwise_cons.1 order).2 (fun k => moves.earlier)
          value inside)

variable (formed : f.Formed)

include formed

/-- Only the blocks between a value and its copy need the value from before: a branch to one of
them comes from between the two. -/
theorem source_liveIn (member : n ∈ f.instrs) (copy : f.CopyOf n m) (value : f.Computes m m)
    (live : (m : Value) ∈ f.liveIn.getD b []) : f.Between m n b := by
  refine liveIn_least (P := fun b v => v = (m : Value) → f.Between m n b) ?_ live rfl
  rintro b listed v needed rfl
  refine ⟨fun here => not_needs_of_mem (moves.ordered b) (fun k => moves.earlier) value here needed, ?_⟩
  rcases needed.cases with ⟨c, goes, between⟩ | ⟨k, here, used⟩
  · obtain ⟨body, t, i, whole, known, targets, -⟩ := formed.last listed
    rw [formed.succs b listed, targets] at goes
    obtain ⟨low, high⟩ := moves.near member copy (between rfl) ⟨i, known, goes⟩
    exact ⟨t, by simp [whole], low, high.le⟩
  · obtain rfl := moves.once copy used
    exact ⟨k, here, moves.earlier copy.uses, Nat.le_refl _⟩

/-- Behind its copy a value is needed no more. -/
theorem source_dead (listed : b ∈ f.layout) (here : n ∈ (f.block b).instrs) (copy : f.CopyOf n m)
    (value : f.Computes m m) {before rest : List Nat}
    (whole : (f.block b).instrs = before ++ x :: rest) (behind : n ≤ x) :
    ¬ f.Needs (· ∈ f.liveOut f.liveIn b) rest m := by
  intro needed
  have order := moves.ordered b
  rcases needed.cases with out | ⟨k, later, used⟩
  · obtain ⟨c, goes, live⟩ := mem_liveOut.1 out
    have member : n ∈ f.instrs := List.mem_flatMap.2 ⟨b, listed, here⟩
    have between := moves.source_liveIn formed member copy value live
    obtain ⟨body, t, i, whole', known, targets, -⟩ := formed.last listed
    rw [formed.succs b listed, targets] at goes
    have high := (moves.near member copy between ⟨i, known, goes⟩).2
    -- but the branch is at the end of the block
    rw [whole'] at order here
    rcases List.mem_append.1 here with inside | last
    · have := (List.pairwise_append.1 order).2.2 n inside t (by simp)
      omega
    · rw [List.mem_singleton.1 last] at high
      exact Nat.lt_irrefl _ high
  · obtain rfl := moves.once copy used
    rw [whole] at order
    have := (List.pairwise_cons.1 (List.pairwise_append.1 order).2.1).1 k later
    omega

theorem hasValue {i : Instr} (known : f.arena[n]? = some i) (copy : i.op = .copy) : i.hasValue = true := by
  obtain ⟨m, j, args, known', type⟩ := moves.source known copy
  obtain ⟨m', j', same, known'', value⟩ := formed.values.operand n i known (m : Value) (by simp [args])
  cases Int.ofNat.inj same
  cases known'.symm.trans known''
  rw [Instr.hasValue, Bool.and_eq_true, type] at value
  rw [Instr.hasValue, copy, value.1]
  rfl

/-- A value and its copy have no number in common. -/
theorem apart (dominated : f.Dominated) (numbered : f.Numbered)
    (injective : Set.InjOn f.indexOf {n | n ∈ f.instrs}) (member : n ∈ f.instrs) (copy : f.CopyOf n m)
    {number : Int} (live : f.LiveAt m number) : ¬ f.LiveAt n number := by
  intro live'
  obtain ⟨i, known, op, used⟩ := id copy
  obtain ⟨m', j, same, known', value⟩ := formed.values.operand n i known m used
  cases Int.ofNat.inj same
  have source := dominated.operand_mem formed member known used
  have computes : f.Computes m m := ⟨rfl, by simp [known', value]⟩
  have value' := moves.hasValue formed known op
  have computes' : f.Computes n n := ⟨rfl, by simp [known, value']⟩
  -- the number is that of an instruction
  obtain ⟨r, range, inside⟩ := id live
  obtain ⟨d, listed'', range⟩ := List.mem_flatMap.1 range
  obtain ⟨x, at', rfl⟩ := formed.range_within numbered listed'' source range inside
  obtain ⟨k, known'', -⟩ := formed.owner d x at'
  have point : x ∈ f.instrs := List.mem_flatMap.2 ⟨d, listed'', at'⟩
  obtain ⟨before, rest, whole⟩ := List.append_of_mem at'
  rw [dominated.liveAt_iff formed numbered injective source known' value point known''] at live
  rw [dominated.liveAt_iff formed numbered injective member known value' point known''] at live'
  -- where the copy is live it is made already, in the same block
  obtain ⟨home, behind⟩ : n ∈ (f.block d).instrs ∧ n ≤ x := by
    rcases live' with rfl | later | ⟨operand, -⟩
    · exact ⟨at', Nat.le_refl _⟩
    · exact moves.copy_live copy.isCopy computes' whole
        (formed.needs_of_liveAfter later listed'' whole)
    · have use : f.UsesValue x n := ⟨k, known'', operand⟩
      exact ⟨moves.behind copy.isCopy use at', (moves.earlier use).le⟩
  have earlier := moves.earlier copy.uses
  rcases live with rfl | later | ⟨operand, noCopy⟩
  · omega
  · exact moves.source_dead formed listed'' home copy computes whole behind
      (formed.needs_of_liveAfter later listed'' whole)
  · obtain rfl := moves.once copy ⟨k, known'', operand⟩
    cases known.symm.trans known''
    exact noCopy op

end Moves

/-! ## Joining -/

/-- Each copy is joined with its source, if their numbers are different, they are of one class,
and no value is in two pairs. -/
theorem coalesce_all {S : Value → Int → Prop} {code : List (Nat × Instr)} {iv : Intervals}
    (sound : iv.Sound S)
    (pairs : ∀ p ∈ code, p.2.op = .copy → ∃ v, p.2.args = [v] ∧ f.classOf v = f.classOf p.1 ∧
      ∀ i, S v i → ¬ S p.1 i)
    (distinct : code.Pairwise fun p q => p.2.op = .copy → q.2.op = .copy →
      ∀ v ∈ (p.1 : Value) :: p.2.args, v ∉ (q.1 : Value) :: q.2.args)
    (alone : ∀ p ∈ code, p.2.op = .copy → ∀ v ∈ (p.1 : Value) :: p.2.args,
      ∀ w, iv.representative w = iv.representative v → w = v) :
    ∃ iv', f.coalesce iv code = .ok ((code.filter fun p => p.2.op = .copy).length, iv') ∧
      (∀ v w, iv.representative v = iv.representative w → iv'.representative v = iv'.representative w) ∧
      ∀ p ∈ code, p.2.op = .copy → ∀ v ∈ p.2.args, iv'.representative v = iv'.representative p.1 := by
  induction code generalizing iv with
  | nil => exact ⟨iv, rfl, fun _ _ => id, by simp⟩
  | cons p rest ih =>
    obtain ⟨n, i⟩ := p
    obtain ⟨first, distinct⟩ := List.pairwise_cons.1 distinct
    rw [List.forall_mem_cons] at pairs alone
    rw [coalesce]
    by_cases copy : i.op = .copy
    · obtain ⟨v, args, cls, apart⟩ := pairs.1 copy
      have args : i.args = [v] := args
      have single := alone.1 copy
      simp only [args] at single first
      have topV := single v (by simp) _ (sound.top v)
      have topN := single n (by simp) _ (sound.top n)
      have joins := sound.joins v n fun a b => f.classOf a == f.classOf b
      have joined : (iv.join v n fun a b => f.classOf a == f.classOf b).1 = true := by
        refine joins.succeeds.2 (.inr ⟨?_, by simp [topV, topN, cls]⟩)
        rintro ⟨k, left, right⟩
        obtain ⟨u, same, number⟩ := (sound.holds _ k).1 (Intervals.hasNumber_iff.1 left)
        obtain ⟨u', same', number'⟩ := (sound.holds _ k).1 (Intervals.hasNumber_iff.1 right)
        rw [single v (by simp) u same] at number
        rw [single n (by simp) u' same'] at number'
        exact apart k number number'
      have moved := joins.moved joined
      obtain ⟨iv', ran, keeps, together⟩ := ih (sound.join v n _) pairs.2 distinct
        fun q member copy' u touched w same => by
          have other : ∀ u' ∈ [(n : Value), v], u' ≠ u := by
            rintro u' mem rfl
            exact first q member copy copy' u' mem touched
          have lone := alone.2 q member copy' u touched
          have notN : iv.representative u ≠ iv.representative n := fun same =>
            other n (by simp) (lone n same.symm)
          rw [moved, moved, if_neg notN] at same
          split at same
          · exact absurd (lone v same) (other v (by simp))
          · exact lone w same
      have kept : ∀ u w, iv.representative u = iv.representative w →
          iv'.representative u = iv'.representative w := by
        intro u w same
        refine keeps u w ?_
        rw [moved, moved, same]
      refine ⟨iv', ?_, kept, List.forall_mem_cons.2 ⟨fun _ u member => ?_, together⟩⟩
      · simp only [args, copy, if_true, ran, joined, bind, Except.bind, pure, Except.pure]
        simp [copy]
      · rw [args, List.mem_singleton] at member
        rw [member]
        refine keeps v n ?_
        rw [moved, moved, if_pos rfl]
        split <;> rfl
    · obtain ⟨iv', ran, keeps, together⟩ := ih sound pairs.2 distinct alone.2
      refine ⟨iv', ?_, keeps, List.forall_mem_cons.2 ⟨fun copy' => absurd copy' copy, together⟩⟩
      simpa [copy] using ran

/-! ## Functions -/

/-- Annotations add and take away no copies. -/
theorem Annotates.copies_length (same : f.Annotates g) :
    (g.code.filter fun p => p.2.op = .copy).length = (f.code.filter fun p => p.2.op = .copy).length := by
  rw [Func.code, Func.code, same.instrs]
  induction f.instrs with
  | nil => rfl
  | cons n ns ih =>
    have both := same.arena n
    cases known : f.arena[n]? <;> cases known' : g.arena[n]? <;> rw [known, known'] at both <;>
      cases both
    · simpa [known, known'] using ih
    · rename_i i j like
      by_cases copy : i.op = .copy
      · simpa [known, known', like.op, copy] using ih
      · simpa [known, known', like.op, copy] using ih

/-- Different copies have different sources, and no source is a copy. -/
theorem Moves.distinct (moves : f.Moves) (once : f.instrs.Nodup) :
    f.code.Pairwise fun p q => p.2.op = .copy → q.2.op = .copy →
      ∀ v ∈ (p.1 : Value) :: p.2.args, v ∉ (q.1 : Value) :: q.2.args := by
  rw [Func.code, List.pairwise_filterMap]
  refine once.imp fun {n k} other p found q found' copy copy' => ?_
  obtain ⟨i, known, rfl⟩ := Option.map_eq_some_iff.1 found
  obtain ⟨j, known', rfl⟩ := Option.map_eq_some_iff.1 found'
  obtain ⟨m, -, args, -⟩ := moves.source known copy
  obtain ⟨l, -, args', -⟩ := moves.source known' copy'
  have first : f.CopyOf n m := ⟨i, known, copy, by simp [args]⟩
  have second : f.CopyOf k l := ⟨j, known', copy', by simp [args']⟩
  simp only [args, args', List.mem_cons, List.not_mem_nil, or_false]
  rintro v (rfl | rfl) (same | same)
  · exact other (Int.ofNat.inj same)
  · exact moves.plain second (Int.ofNat.inj same ▸ first.isCopy)
  · exact moves.plain first (Int.ofNat.inj same ▸ second.isCopy)
  · cases Int.ofNat.inj same
    exact other (moves.once second first.uses)

/-- All copies are joined with their sources and get their places. -/
theorem Moves.allocate {A : Nat → Fact → Prop} (moves : f.number.Moves) (formed : f.Formed)
    (guarded : f.Guarded A) {file : RegisterFile} (classed : file.Classed) :
    ∃ g stats, f.allocate file = (g, .ok stats) ∧
      stats.coalesced = (f.code.filter fun p => p.2.op = .copy).length ∧
      ∀ {n : Nat} {i : Instr}, (n, i) ∈ g.code → i.op = .copy → ∃ (m : Nat) (j : Instr),
        i.args = [(m : Value)] ∧ (m, j) ∈ g.code ∧ j.loc = i.loc ∧ i.loc ≠ .unassigned := by
  have numbers := f.annotates_number
  have formed' := numbers.formed formed
  have dominated := (numbers.guarded guarded).dominated formed'
  obtain ⟨g, stats, ran, placed⟩ := guarded.allocate formed classed
  refine ⟨g, stats, ran, ?_⟩
  obtain ⟨iv₀, iv, ranges, joined, same, -, found⟩ := allocate_cases ran
  obtain ⟨sound, single⟩ := liveRanges_sound ranges
  have self := Intervals.Sound.representative_single single
  have pairs : ∀ p ∈ f.number.code, p.2.op = .copy → ∃ v, p.2.args = [v] ∧
      f.number.classOf v = f.number.classOf p.1 ∧ ∀ k, f.number.LiveAt v k → ¬ f.number.LiveAt p.1 k := by
    rintro ⟨n, i⟩ member copy
    obtain ⟨inside, known⟩ := mem_code.1 member
    obtain ⟨m, j, args, known', type⟩ := moves.source known copy
    refine ⟨m, args, ?_, fun k live => ?_⟩
    · simp [classOf, instr?, known, known', type]
    · exact moves.apart formed' dominated formed.numbered formed.orderly.bijective.injOn inside
        ⟨i, known, copy, by simp [args]⟩ live
  obtain ⟨iv', joined', -, together⟩ := coalesce_all sound pairs (moves.distinct formed'.orderly.once)
    fun p member copy v touched w same => by rwa [self, self] at same
  obtain ⟨count, rfl⟩ := Prod.mk.inj (Except.ok.inj (joined.symm.trans joined'))
  refine ⟨by rw [count, numbers.copies_length], fun {n i} member copy => ?_⟩
  subst same
  obtain ⟨inside, known⟩ := mem_code.1 member
  have places := f.number.annotates_setPlaces iv (f.number.scan file iv)
  obtain ⟨i₀, known₀, like⟩ := places.symm.instr known
  have copy₀ := like.op.trans copy
  obtain ⟨m, j₀, args, known₁, -⟩ := moves.source known₀ copy₀
  obtain ⟨j, known', like'⟩ := places.instr known₁
  have operand : (m : Value) ∈ i₀.args := by simp [args]
  have inside₀ : n ∈ f.number.instrs := inside
  have source := dominated.operand_mem formed' inside₀ known₀ operand
  have value := moves.hasValue formed' known₀ copy₀
  have value' : j.hasValue = true := by
    obtain ⟨m', j', equal, known₂, value'⟩ := formed'.values.operand n i₀ known₀ m operand
    cases Int.ofNat.inj equal
    cases known₁.symm.trans known₂
    exact like'.hasValue.trans value'
  -- the place of a class is that of all its values
  have listed₀ := mem_code.2 ⟨inside₀, known₀⟩
  obtain ⟨loc, look⟩ := found listed₀ value
  have look' : place? iv (f.number.scan file iv) m = some loc := by
    rw [place?, together (n, i₀) listed₀ copy₀ m operand]
    exact look
  have first := (setPlaces_instr inside₀ known (like.hasValue.symm.trans value) look).1
  have second := (setPlaces_instr source known' value' look').1
  refine ⟨m, j, like.args.symm.trans args, mem_code.2 ⟨source, known'⟩, second.trans first.symm,
    fun none => ?_⟩
  obtain ⟨k, cell⟩ := placed.place inside₀ known₀ value
  rw [placeOf, known, Option.bind_some, none] at cell
  cases cell

end Func

/-- The code of a function copies arguments only, each of which has no other use. -/
theorem Lower.function_moves {f : FuncDef} {g : Func} (lowered : Lower.function f = .ok g) :
    g.Formed ∧ (∃ A, g.Guarded A) ∧ g.number.Moves := by
  obtain ⟨c, ran, built⟩ := Lower.function_ok.1 lowered
  obtain ⟨A, guarded⟩ := Lower.body_guarded ran
  have trims := (Lower.body_laid ran).trims built
  have guarded := trims.guarded guarded
  have neat := Lower.body_neat ran
  have numbers := g.annotates_number
  have formed := numbers.formed trims.formed
  refine ⟨trims.formed, ⟨A, guarded⟩, neat.copied.moves neat.typed formed
    ((numbers.guarded guarded).dominated formed) (fun n => (numbers.code n).trans (trims.code n))
    (fun b => ?_) fun b gone => ?_⟩
  · rw [numbers.block]
    by_cases left : b ∈ g.layout
    · exact trims.instrs_prefix left
    · rw [trims.dropped b left]
      exact List.nil_prefix
  · rw [numbers.block, trims.dropped b (numbers.layout ▸ gone)]

/-- Argument moves cost nothing: in the functions of a program that was lowered, with the
registers of either machine, as many copies are joined with their sources as there are copies,
and a copy is in the place of its source. -/
theorem argument_moves_are_coalesced {p : Program} {threads : Int} {path : Text} {m : Module}
    (lowered : p.lower threads path = .ok m) {f : Func} (member : f ∈ m.functions) (arch : Arch) :
    ∃ g stats, f.allocate arch.registers = (g, .ok stats) ∧
      stats.coalesced = (f.code.filter fun q => q.2.op = .copy).length ∧
      ∀ {n : Nat} {i : Instr}, (n, i) ∈ g.code → i.op = .copy → ∃ (k : Nat) (j : Instr),
        i.args = [(k : Value)] ∧ (k, j) ∈ g.code ∧ j.loc = i.loc ∧ i.loc ≠ .unassigned := by
  obtain ⟨source, -, ran⟩ := Program.lower_mem lowered member
  obtain ⟨formed, ⟨A, guarded⟩, moves⟩ := Lower.function_moves ran
  exact moves.allocate formed guarded arch.registers_classed

/-- Calls in the arguments of calls, also behind `&&` and `||`, in the condition of a loop and in
a result. -/
def nestedText : Text :=
  "int pick(int a, boolean b, double c) \x7b if (b) return a; return 0; \x7d " ++
  "int main() \x7b " ++
    "int k = 3; " ++
    "while (pick(k, k > 1 && pick(k, true, 0.5) > 0, 1.5) > 0) k--; " ++
    "return pick(pick(1, k > 2 || pick(2, k < 3 && true, 2.5) > 0, 3.5), " ++
      "pick(k, false, 4.5) == 0, 5.5); \x7d"

/-- All 18 copies of the second function are joined with their sources. -/
theorem nested_moves_are_coalesced : ∃ p m f, Program.parse nestedText = .ok p ∧ p.check.2 = none ∧
    p.check.1.lower 2 "nested" = .ok m ∧ f ∈ m.functions ∧ ∀ arch : Arch,
      ∃ g stats, f.allocate arch.registers = (g, .ok stats) ∧ stats.coalesced = 18 ∧
        ∀ {n : Nat} {i : Instr}, (n, i) ∈ g.code → i.op = .copy → ∃ (k : Nat) (j : Instr),
          i.args = [(k : Value)] ∧ (k, j) ∈ g.code ∧ j.loc = i.loc ∧ i.loc ≠ .unassigned := by
  have shape : (Program.parse nestedText).toOption.bind (fun p =>
      (p.check.1.lower 2 "nested").toOption.bind fun m => m.functions[1]?.map fun f =>
        (p.check.2.isNone, (f.code.filter fun q => q.2.op = .copy).length)) = some (true, 18) := by
    decide +kernel
  obtain ⟨p, parsed, shape⟩ := Option.bind_eq_some_iff.1 shape
  obtain ⟨m, lowered, shape⟩ := Option.bind_eq_some_iff.1 shape
  obtain ⟨f, second, shape⟩ := Option.map_eq_some_iff.1 shape
  obtain ⟨checked, count⟩ := Prod.mk.inj shape
  have lowered := Except.toOption_eq_some.1 lowered
  have member := List.mem_of_getElem? second
  refine ⟨p, m, f, Except.toOption_eq_some.1 parsed, Option.isNone_iff_eq_none.1 checked, lowered, member,
    fun arch => ?_⟩
  obtain ⟨g, stats, ran, joined, places⟩ := argument_moves_are_coalesced lowered member arch
  exact ⟨g, stats, ran, joined.trans count, places⟩

end ImpCompiler

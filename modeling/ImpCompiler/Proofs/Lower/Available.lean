import ImpCompiler.Proofs.Code.Available
import ImpCompiler.Proofs.Lower.Shape

/-!
# Proofs.Lower.Available — lowering uses only what is there

The sets of facts that `Func.Guarded` asks for are found while a function is made. A
block that is made gets what is there at the cursor; all code that branches to the block
is made behind that point, in places where this is still there. `Leads` says how the
cursor got from one place to another with such sets: the sets of the blocks that were
there stay, and what was there is there. The slots of the variables in scope are always
there (`Stored`), since a variable gets its slot and its first value together.
-/

namespace ImpCompiler.Lower

set_option autoImplicit false

variable {A A' A'' : Nat → Fact → Prop} {c c' c'' : Cursor} {n : Nat} {env : Slots}

def There (A : Nat → Fact → Prop) (c : Cursor) (x : Fact) : Prop :=
  A c.block x ∨ c.func.Provide (c.func.block c.block).instrs x

/-- The cursor is in a function where only what is there is used. -/
structure Sound (A : Nat → Fact → Prop) (c : Cursor) : Prop where
  laid : c.func.Laid
  guarded : c.func.Guarded A
  inside : c.block < c.func.blocks.size

/-- The cursor got from one place to another. -/
structure Leads (A : Nat → Fact → Prop) (c : Cursor) (A' : Nat → Fact → Prop) (c' : Cursor) :
    Prop where
  sound : Sound A' c'
  old : ∀ b < c.func.blocks.size, A' b = A b
  size : c.func.blocks.size ≤ c'.func.blocks.size
  keeps : ∀ x, There A c x → There A' c' x

/-- The slots of the variables hold something. -/
def Stored (A : Nat → Fact → Prop) (c : Cursor) (env : Slots) : Prop :=
  ∀ v ∈ env, There A c (.slot v.2)

namespace Leads

theorem refl (sound : Sound A c) : Leads A c A c := ⟨sound, fun _ _ => rfl, Nat.le_refl _, fun _ => id⟩

theorem trans (first : Leads A c A' c') (second : Leads A' c' A'' c'') : Leads A c A'' c'' where
  sound := second.sound
  old b inside := (second.old b (Nat.lt_of_lt_of_le inside first.size)).trans (first.old b inside)
  size := Nat.le_trans first.size second.size
  keeps x there := second.keeps x (first.keeps x there)

theorem stored (leads : Leads A c A' c') {env : Slots} (stored : Stored A c env) : Stored A' c' env :=
  fun v member => leads.keeps _ (stored v member)

end Leads

theorem Stored.cons {name : Text} {s : Nat} (stored : Stored A c env)
    (there : There A c (.slot s)) : Stored A c ((name, s) :: env) :=
  List.forall_mem_cons.2 ⟨there, stored⟩

theorem Stored.lookup {name : Text} {s : Nat} (stored : Stored A c env)
    (known : env.lookup name = some s) : There A c (.slot s) :=
  stored _ (mem_of_lookup known)

namespace Sound

/-- What matters is the sets of the blocks that are there. -/
theorem congr (sound : Sound A c) (same : ∀ b < c.func.blocks.size, A' b = A b) : Sound A' c := by
  have inside : ∀ {b n : Nat} {before behind : List Nat},
      (c.func.block b).instrs = before ++ n :: behind → b < c.func.blocks.size :=
    fun {_ n _ _} whole => Func.lt_size_of_mem (n := n) (by simp [whole])
  refine ⟨sound.laid, ⟨?_, ?_, ?_⟩, sound.inside⟩
  · rw [same 0 sound.laid.entry]
    exact sound.guarded.entry
  · intro b n before behind i whole known
    rw [same b (inside whole)]
    exact sound.guarded.uses whole known
  · intro b n before behind i whole known t goes
    rw [same b (inside whole), same t (sound.laid.targets n i known t goes)]
    exact sound.guarded.goes whole known t goes

/-- Blocks that are yet to be made may expect anything. -/
theorem prepare (sound : Sound A c) (E : Fact → Prop) :
    ∃ A', Leads A c A' c ∧ ∀ b, c.func.blocks.size ≤ b → A' b = E := by
  refine ⟨fun b => if b < c.func.blocks.size then A b else E, ⟨?_, ?_, Nat.le_refl _, ?_⟩, ?_⟩
  · exact sound.congr fun b inside => if_pos inside
  · exact fun b inside => if_pos inside
  · intro x there
    simpa only [There, if_pos sound.inside] using there
  · exact fun b outside => if_neg (Nat.not_lt.2 outside)

theorem slotted (sound : Sound A c) (name : Text) (t : DataType) : Leads A c A (c.slotted name t) :=
  ⟨⟨⟨sound.laid.layout, sound.laid.entry, sound.laid.owner, sound.laid.once, sound.laid.targets,
      sound.laid.values.operand, sound.laid.values.source⟩,
    ⟨sound.guarded.entry, sound.guarded.uses, sound.guarded.goes⟩, sound.inside⟩,
    fun _ _ => rfl, Nat.le_refl _, fun _ => id⟩

theorem blocked (sound : Sound A c) (k : LabelKind) : Leads A c A (c.blocked k) where
  sound := {
    laid := sound.laid.addBlock k
    guarded := {
      entry := sound.guarded.entry
      uses := fun whole => sound.guarded.uses (Cursor.blocked_instrs c k _ ▸ whole)
      goes := fun whole => sound.guarded.goes (Cursor.blocked_instrs c k _ ▸ whole) }
    inside := by
      rw [Cursor.blocked_size]
      exact Nat.lt_succ_of_lt sound.inside }
  old _ _ := rfl
  size := by simp
  keeps x there := by
    refine there.imp id fun given => ?_
    rw [Cursor.blocked_block, Cursor.blocked_instrs]
    exact given

theorem moved (sound : Sound A c) {b : Nat} (inside : b < c.func.blocks.size) : Sound A (c.moved b) :=
  ⟨sound.laid, sound.guarded, inside⟩

/-- An instruction that uses what is there and branches to blocks that expect nothing
else. -/
theorem emit (sound : Sound A c) {r : Request} (ran : emit r c = .ok (n, c'))
    (uses : ∀ m, .own m ∈ r.operands → There A c (.value m))
    (loads : ∀ s : Nat, r = .load s → There A c (.slot s))
    (goes : ∀ b, .own b ∈ r.targets → ∀ x, A b x → There A c x) :
    Leads A c A c' ∧ There A c' (.value n) := by
  obtain ⟨op, t, args, planned, rfl, rfl⟩ := emit_ok.1 ran
  have accepted := planned.planned
  have block := Func.append_block c.func op t (args.map fun v => (v.number : Value)) sound.inside
  have used : ∀ i : Instr, i.op = op → i.args = args.map (fun v => (v.number : Value)) →
      ∀ x, i.Uses x → There A c x := by
    rintro i rfl operands x used
    cases x with
    | value m =>
      rw [Instr.Uses, operands] at used
      obtain ⟨v, known, same⟩ := List.mem_map.1 used
      have number : v.number = m := by exact_mod_cast same
      exact uses m (number ▸ (accepted.value known).2)
    | slot s => exact loads s (accepted.loads s used)
  refine ⟨⟨⟨?_, ?_, by simpa using sound.inside⟩, fun _ _ => rfl, by simp, ?_⟩, ?_⟩
  · exact sound.laid.append sound.inside t (fun b member => (accepted.targets b member).1)
      (fun v member => (accepted.value member).1) accepted.source
  · exact sound.guarded.append sound.laid sound.inside used
      fun b member => goes b (accepted.targets b member).2
  · intro x there
    refine there.imp id fun here => ?_
    refine (here.grows (.of_append c.func c.block op t _)).mono ?_
    simp [Cursor.emitted, block]
  · exact .inr (by simp [Cursor.emitted, block])

theorem blocks (sound : Sound A c) (kinds : List LabelKind) :
    Leads A c A (kinds.foldl Cursor.blocked c) ∧
      (kinds.foldl Cursor.blocked c).func.blocks.size = c.func.blocks.size + kinds.length := by
  induction kinds generalizing c with
  | nil => exact ⟨.refl sound, rfl⟩
  | cons k kinds ih =>
    have first := sound.blocked k
    obtain ⟨rest, size⟩ := ih first.sound
    refine ⟨first.trans rest, ?_⟩
    rw [List.foldl_cons, size, Cursor.blocked_size, List.length_cons]
    omega

/-- An instruction that neither loads nor branches. -/
theorem compute (sound : Sound A c) {r : Request} (ran : Lower.emit r c = .ok (n, c'))
    (plain : r.targets = []) (noLoad : ∀ s, r ≠ .load s)
    (uses : ∀ m, .own m ∈ r.operands → There A c (.value m)) :
    Leads A c A c' ∧ There A c' (.value n) :=
  sound.emit ran uses (fun s same => absurd same (noLoad s)) fun b member => by simp [plain] at member

theorem load (sound : Sound A c) {s : Nat} (ran : Lower.emit (.load s) c = .ok (n, c'))
    (there : There A c (.slot s)) : Leads A c A c' ∧ There A c' (.value n) := by
  refine sound.emit ran (by simp [Request.operands]) (fun t same => ?_) (by simp [Request.targets])
  cases same
  exact there

/-- A slot that is stored to holds something. -/
theorem store (sound : Sound A c) {s v : Nat} (ran : Lower.emit (.store s (.own v)) c = .ok (n, c'))
    (there : There A c (.value v)) : Leads A c A c' ∧ There A c' (.slot s) := by
  refine ⟨(sound.compute ran rfl (by simp) (by simpa [Request.operands] using there)).1, .inr ?_⟩
  obtain ⟨op, t, args, planned, rfl, rfl⟩ := emit_ok.1 ran
  cases planned
  refine ⟨c.func.arena.size, ?_, ⟨.store s, .void, [(v : Value)], some c.block, none, .unassigned⟩,
    ?_, rfl⟩
  · simp [Cursor.emitted, Func.append_block _ _ _ _ sound.inside]
  · simp [Cursor.emitted, Func.append_arena]

theorem count (sound : Sound A c) {s : Nat} {op : ArithOp} (held : There A c (.slot s))
    (counted : Lower.count s op c = .ok ((), c')) : Leads A c A c' := by
  obtain ⟨v, c₁, one, c₂, w, c₃, m, loaded, made, added, stored⟩ := count_ok.1 counted
  obtain ⟨first, value⟩ := sound.load loaded held
  obtain ⟨second, one'⟩ := first.sound.compute made rfl (by simp) (by simp [Request.operands])
  obtain ⟨third, sum⟩ := second.sound.compute added rfl (by simp) (by
    simpa [Request.operands] using ⟨second.keeps _ value, one'⟩)
  obtain ⟨fourth, -⟩ := third.sound.store stored sum
  exact first.trans (second.trans (third.trans fourth))

/-- The counter of a loop over an array is filled, and the length is there. -/
theorem forCounter (sound : Sound A c) {name : Text} {a l counter : Nat}
    (array : There A c (.value a)) (ran : ForCounter name a c l counter c') :
    Leads A c A c' ∧ There A c' (.value l) ∧ There A c' (.slot counter) := by
  obtain ⟨len, made, stored⟩ := ran
  obtain ⟨first, length⟩ := sound.compute len rfl (by simp) (by simpa [Request.operands] using array)
  have second := first.sound.slotted (name ++ ".idx") .int
  obtain ⟨third, zero⟩ := second.sound.compute made rfl (by simp) (by simp [Request.operands])
  obtain ⟨fourth, held⟩ := third.sound.store stored zero
  have rest := second.trans (third.trans fourth)
  exact ⟨first.trans rest, rest.keeps _ length, held⟩

theorem forTest (sound : Sound A c) {counter l more : Nat} (held : There A c (.slot counter))
    (length : There A c (.value l)) (ran : ForTest counter l c more c') :
    Leads A c A c' ∧ There A c' (.value more) := by
  obtain ⟨loaded, compared⟩ := ran
  obtain ⟨first, count⟩ := sound.load loaded held
  obtain ⟨second, value⟩ := first.sound.compute compared rfl (by simp)
    (by simpa [Request.operands] using ⟨count, first.keeps _ length⟩)
  exact ⟨first.trans second, value⟩

/-- The slot of the element is filled in every round. -/
theorem forElement (sound : Sound A c) {counter a slot : Nat} {d : DataType}
    (held : There A c (.slot counter)) (array : There A c (.value a))
    (ran : ForElement counter a slot d c c') : Leads A c A c' ∧ There A c' (.slot slot) := by
  obtain ⟨loaded, element, stored⟩ := ran
  obtain ⟨first, count⟩ := sound.load loaded held
  obtain ⟨second, value⟩ := first.sound.compute element rfl (by simp)
    (by simpa [Request.operands] using ⟨first.keeps _ array, count⟩)
  obtain ⟨third, kept⟩ := second.sound.store stored value
  exact ⟨first.trans (second.trans third), kept⟩

end Sound

/-! ## Blocks that are made together -/

/-- The cursor `c` is in the code for which `k` blocks were made behind `c₀`: they expect
`E`, which is there, and has what was there at `c₀`. -/
structure Opened (A₀ : Nat → Fact → Prop) (c₀ : Cursor) (E : Fact → Prop) (k : Nat)
    (A : Nat → Fact → Prop) (c : Cursor) : Prop where
  sound : Sound A c
  made : c₀.func.blocks.size + k ≤ c.func.blocks.size
  expects : ∀ b, c₀.func.blocks.size ≤ b → b < c₀.func.blocks.size + k → A b = E
  old : ∀ b < c₀.func.blocks.size, A b = A₀ b
  covers : ∀ x, There A₀ c₀ x → E x
  keeps : ∀ x, E x → There A c x

namespace Opened

variable {A₀ : Nat → Fact → Prop} {c₀ : Cursor} {E : Fact → Prop} {k : Nat}

theorem of_blocks (sound : Sound A₀ c₀) (kinds : List LabelKind) :
    ∃ A, Opened A₀ c₀ (There A₀ c₀) kinds.length A (kinds.foldl Cursor.blocked c₀) := by
  obtain ⟨A, first, new⟩ := sound.prepare (There A₀ c₀)
  obtain ⟨rest, size⟩ := first.sound.blocks kinds
  have whole := first.trans rest
  exact ⟨A, rest.sound, size.ge, fun b made _ => new b made, whole.old, fun _ => id, whole.keeps⟩

/-- Code leaves the blocks that were opened before it as they are. -/
theorem leads (opened : Opened A₀ c₀ E k A c) (leads : Leads A c A' c') :
    Opened A₀ c₀ E k A' c' where
  sound := leads.sound
  made := Nat.le_trans opened.made leads.size
  expects b made inside := by
    rw [leads.old b (Nat.lt_of_lt_of_le inside opened.made), opened.expects b made inside]
  old b inside := by
    have := opened.made
    rw [leads.old b (by omega), opened.old b inside]
  covers := opened.covers
  keeps x there := leads.keeps x (opened.keeps x there)

theorem still (opened : Opened A₀ c₀ E k A c) {x : Fact} (there : There A₀ c₀ x) : There A c x :=
  opened.keeps x (opened.covers x there)

theorem stored (opened : Opened A₀ c₀ E k A c) {env : Slots} (stored : Stored A₀ c₀ env) :
    Stored A c env :=
  fun v member => opened.still (stored v member)

/-- Control may go to the blocks from everywhere in the code. -/
theorem emit (opened : Opened A₀ c₀ E k A c) {r : Request} (ran : Lower.emit r c = .ok (n, c'))
    (uses : ∀ m, .own m ∈ r.operands → There A c (.value m)) (noLoad : ∀ s, r ≠ .load s)
    (goes : ∀ b, .own b ∈ r.targets → c₀.func.blocks.size ≤ b ∧ b < c₀.func.blocks.size + k) :
    Opened A₀ c₀ E k A c' := by
  refine opened.leads (opened.sound.emit ran uses (fun s same => absurd same (noLoad s))
    fun b member x expected => ?_).1
  obtain ⟨made, inside⟩ := goes b member
  rw [opened.expects b made inside] at expected
  exact opened.keeps x expected

theorem leaveTo (opened : Opened A₀ c₀ E k A c) {b : Nat} (left : Lower.leaveTo b c = .ok ((), c'))
    (made : c₀.func.blocks.size ≤ b) (inside : b < c₀.func.blocks.size + k) :
    Opened A₀ c₀ E k A c' := by
  rcases leaveTo_ok.1 left with ⟨-, rfl⟩ | ⟨-, n, ran⟩
  · exact opened
  · exact opened.emit ran (by simp [Request.operands]) (by simp)
      (by simpa [Request.targets] using ⟨made, inside⟩)

/-- The end of a round of a loop over an array. -/
theorem rounds (opened : Opened A₀ c₀ E k A c) {counter head : Nat} (held : There A c (.slot counter))
    (ended : Rounds counter head c c') (made : c₀.func.blocks.size ≤ head)
    (inside : head < c₀.func.blocks.size + k) : Opened A₀ c₀ E k A c' := by
  rcases ended with ⟨-, rfl⟩ | ⟨-, c₁, n, counted, left⟩
  · exact opened
  · exact (opened.leads (opened.sound.count held counted)).emit left (by simp [Request.operands])
      (by simp) (by simpa [Request.targets] using ⟨made, inside⟩)

theorem moved (opened : Opened A₀ c₀ E k A c) {b : Nat} (made : c₀.func.blocks.size ≤ b)
    (inside : b < c₀.func.blocks.size + k) : Opened A₀ c₀ E k A (c.moved b) where
  sound := opened.sound.moved (Nat.lt_of_lt_of_le inside opened.made)
  made := opened.made
  expects := opened.expects
  old := opened.old
  covers := opened.covers
  keeps x there := .inl (by rwa [Cursor.moved_block, opened.expects b made inside])

theorem done (opened : Opened A₀ c₀ E k A c) : Leads A₀ c₀ A c :=
  ⟨opened.sound, opened.old, Nat.le_trans (Nat.le_add_right _ _) opened.made, fun _ => opened.still⟩

end Opened

/-! ## Expressions -/

/-- The result of `&&` and `||` is there behind them whichever way control took. -/
theorem shortCircuit_leads {op : BinOp} {left : Nat} {right : Lowering Nat}
    (sound : Sound A c) (stored : Stored A c env) (value : There A c (.value left))
    (rightLeads : ∀ {A c v c'}, Sound A c → Stored A c env → right c = .ok (v, c') →
      ∃ A', Leads A c A' c' ∧ There A' c' (.value v))
    (ran : shortCircuit op left right c = .ok (n, c')) :
    ∃ A', Leads A c A' c' ∧ There A' c' (.value n) := by
  obtain ⟨n₁, c₁, n₂, c₂, v, c₃, n₃, c₄, n₄, c₅, kept, decided, ran', kept', left', loaded⟩ :=
    shortCircuit_ok.1 ran
  -- the blocks expect the slot of the outcome too, which is stored to before they are entered
  obtain ⟨A₁, first, new⟩ := sound.prepare fun x => There A c x ∨ x = .slot c.func.slots.length
  obtain ⟨second, size⟩ := first.sound.blocks [if op = .and then .andRight else .orRight, .shortEnd]
  have second : Leads A₁ c A₁ (prepared op c) := second.trans (second.sound.slotted _ _)
  obtain ⟨third, slot⟩ := second.sound.store kept ((first.trans second).keeps _ value)
  have whole := first.trans (second.trans third)
  have opened : Opened A c _ 2 A₁ c₁ := {
    sound := third.sound
    made := Nat.le_trans size.ge third.size
    expects := fun b made _ => new b made
    old := whole.old
    covers := fun _ => .inl
    keeps := fun x expected => expected.elim (whole.keeps x) fun same => same ▸ slot }
  have decision := opened.emit decided
    (by
      simp only [decision]
      split <;> simpa [Request.operands] using opened.still value)
    (by
      simp only [decision]
      split <;> simp)
    (by
      simp only [decision]
      split <;> simp [Request.targets])
  have inside := decision.moved (b := c.func.blocks.size) (Nat.le_refl _) (by simp)
  obtain ⟨A₂, rest, value'⟩ := rightLeads inside.sound (inside.stored stored) ran'
  have rest := inside.leads rest
  have again := rest.leads (rest.sound.store kept' value').1
  have last := (again.emit left' (by simp [Request.operands]) (by simp) (by simp [Request.targets])).moved
    (b := c.func.blocks.size + 1) (by omega) (by simp)
  obtain ⟨result, there⟩ := last.sound.load loaded (last.keeps _ (.inr rfl))
  exact ⟨A₂, (last.leads result).done, there⟩

/-- Copies of values are values. -/
theorem copies_leads {vs ns : List Nat} (sound : Sound A c) (values : ∀ v ∈ vs, There A c (.value v))
    (ran : copies vs c = .ok (ns, c')) : Leads A c A c' ∧ ∀ n ∈ ns, There A c' (.value n) := by
  induction vs generalizing c ns with
  | nil =>
    obtain ⟨rfl, rfl⟩ := copies_nil_ok.1 ran
    exact ⟨.refl sound, by simp⟩
  | cons v vs ih =>
    obtain ⟨w, c₁, ws, copied, ran', rfl⟩ := copies_cons_ok.1 ran
    obtain ⟨here, others⟩ := List.forall_mem_cons.1 values
    obtain ⟨first, value⟩ := sound.compute copied rfl (by simp) (by simpa [Request.operands] using here)
    obtain ⟨rest, values'⟩ := ih first.sound (fun u member => first.keeps _ (others u member)) ran'
    exact ⟨first.trans rest, List.forall_mem_cons.2 ⟨rest.keeps _ value, values'⟩⟩

theorem strictRequest?_operands {op : BinOp} {request : Operand → Operand → Request}
    (strict : strictRequest? op = some request) (v w : Nat) :
    (request (.own v) (.own w)).targets = [] ∧ (∀ s, request (.own v) (.own w) ≠ .load s) ∧
      (request (.own v) (.own w)).operands = [.own v, .own w] := by
  cases op <;> cases strict <;> exact ⟨rfl, by simp, rfl⟩

mutual

/-- The code of an expression leads to where its value is there. -/
theorem expr_leads : ∀ (e : Expr) {A : Nat → Fact → Prop} {c c' : Cursor} {n : Nat},
    Sound A c → Stored A c env → expr env e c = .ok (n, c') →
      ∃ A', Leads A c A' c' ∧ There A' c' (.value n)
  | .typed x t, _, _, _, _, sound, stored, ran => by
    obtain ⟨_, _, same, ran⟩ := expr_ok.1 ran
    cases same
    exact form_leads t x sound stored ran
  | .int .., _, _, _, _, _, _, ran | .double .., _, _, _, _, _, _, ran
  | .bool .., _, _, _, _, _, _, ran | .string .., _, _, _, _, _, _, ran
  | .ident .., _, _, _, _, _, _, ran | .unary .., _, _, _, _, _, _, ran
  | .binary .., _, _, _, _, _, _, ran | .call .., _, _, _, _, _, _, ran
  | .index .., _, _, _, _, _, _, ran | .new .., _, _, _, _, _, _, ran
  | .length .., _, _, _, _, _, _, ran => absurd ran not_fail_ok

theorem form_leads (t : Ty) :
    ∀ (x : Expr) {A : Nat → Fact → Prop} {c c' : Cursor} {n : Nat}, Sound A c →
      Stored A c env → form env t x c = .ok (n, c') → ∃ A', Leads A c A' c' ∧ There A' c' (.value n)
  | .int .., A, _, _, _, sound, _, ran | .double .., A, _, _, _, sound, _, ran
  | .bool .., A, _, _, _, sound, _, ran | .string .., A, _, _, _, sound, _, ran => by
    simp only [form] at ran
    exact ⟨A, sound.compute ran rfl (by simp) (by simp [Request.operands])⟩
  | .ident .., A, _, _, _, sound, stored, ran => by
    obtain ⟨_, known, loaded⟩ := ident_ok.1 ran
    exact ⟨A, sound.load loaded (stored.lookup known)⟩
  | .unary _ op x, _, _, _, _, sound, stored, ran => by
    obtain ⟨_, _, operand, signed⟩ := unary_ok.1 ran
    obtain ⟨A₁, first, value⟩ := expr_leads x sound stored operand
    obtain ⟨second, result⟩ := first.sound.compute signed (by cases op <;> rfl)
      (by cases op <;> simp [signRequest])
      (by cases op <;> simpa [signRequest, Request.operands] using value)
    exact ⟨A₁, first.trans second, result⟩
  | .binary _ op x y, _, _, _, _, sound, stored, ran => by
    cases kind : strictRequest? op with
    | some request =>
      obtain ⟨v, _, w, _, left, right, ran⟩ := (strict_ok kind).1 ran
      obtain ⟨A₁, first, value⟩ := expr_leads x sound stored left
      obtain ⟨A₂, second, value'⟩ := expr_leads y first.sound (first.stored stored) right
      obtain ⟨plain, noLoad, uses⟩ := strictRequest?_operands kind v w
      obtain ⟨third, result⟩ := second.sound.compute ran plain noLoad
        (by simpa [uses] using ⟨second.keeps _ value, value'⟩)
      exact ⟨A₂, first.trans (second.trans third), result⟩
    | none =>
      obtain ⟨_, _, left, ran⟩ := (logical_ok kind).1 ran
      obtain ⟨A₁, first, value⟩ := expr_leads x sound stored left
      obtain ⟨A₂, second, result⟩ :=
        shortCircuit_leads first.sound (first.stored stored) value (expr_leads y) ran
      exact ⟨A₂, first.trans second, result⟩
  | .call _ _ args, _, _, _, _, sound, stored, ran => by
    obtain ⟨_, _, _, _, _, evaluated, copied, -, called⟩ := call_ok.1 ran
    obtain ⟨A₁, first, values⟩ := exprs_leads args sound stored evaluated
    obtain ⟨second, values'⟩ := copies_leads first.sound values copied
    obtain ⟨third, result⟩ := second.sound.compute called rfl (by simp)
      (by simpa [Request.operands] using values')
    exact ⟨A₁, first.trans (second.trans third), result⟩
  | .index _ a i, _, _, _, _, sound, stored, ran => by
    obtain ⟨v, _, _, _, _, array, index, -, loaded⟩ := index_ok.1 ran
    obtain ⟨A₁, first, value⟩ := expr_leads a sound stored array
    obtain ⟨A₂, second, value'⟩ := expr_leads i first.sound (first.stored stored) index
    obtain ⟨third, result⟩ := second.sound.compute loaded rfl (by simp)
      (by simpa [Request.operands] using ⟨second.keeps _ value, value'⟩)
    exact ⟨A₂, first.trans (second.trans third), result⟩
  | .new _ _ sizes, _, _, _, _, sound, stored, ran => by
    obtain ⟨_, _, _, evaluated, -, made⟩ := new_ok.1 ran
    obtain ⟨A₁, first, values⟩ := exprs_leads sizes sound stored evaluated
    obtain ⟨second, result⟩ := first.sound.compute made rfl (by simp)
      (by simpa [Request.operands] using values)
    exact ⟨A₁, first.trans second, result⟩
  | .length _ a _, _, _, _, _, sound, stored, ran => by
    obtain ⟨_, _, array, ran⟩ := length_ok.1 ran
    obtain ⟨A₁, first, value⟩ := expr_leads a sound stored array
    obtain ⟨second, result⟩ := first.sound.compute ran rfl (by simp)
      (by simpa [Request.operands] using value)
    exact ⟨A₁, first.trans second, result⟩
  | .typed .., _, _, _, _, _, _, ran => absurd ran not_typed_ok

theorem exprs_leads : ∀ (es : List Expr) {A : Nat → Fact → Prop} {c c' : Cursor}
    {ns : List Nat}, Sound A c → Stored A c env → exprs env es c = .ok (ns, c') →
      ∃ A', Leads A c A' c' ∧ ∀ n ∈ ns, There A' c' (.value n)
  | [], A, _, _, _, sound, _, ran => by
    obtain ⟨rfl, rfl⟩ := exprs_nil_ok.1 ran
    exact ⟨A, .refl sound, by simp⟩
  | e :: es, _, _, _, _, sound, stored, ran => by
    obtain ⟨v, _, _, first, rest, rfl⟩ := exprs_cons_ok.1 ran
    obtain ⟨A₁, first, value⟩ := expr_leads e sound stored first
    obtain ⟨A₂, rest, values⟩ := exprs_leads es first.sound (first.stored stored) rest
    exact ⟨A₂, first.trans rest, List.forall_mem_cons.2 ⟨rest.keeps _ value, values⟩⟩

end

/-! ## Statements -/

section Statements

variable {env env' : Slots}

/-- A declared variable has a value from the start. -/
theorem initial_leads {d : DataType} {item : DeclItem} (sound : Sound A c) (stored : Stored A c env)
    (ran : initial env d item c = .ok (n, c')) :
    ∃ A', Leads A c A' c' ∧ There A' c' (.value n) := by
  obtain ⟨_, _, init⟩ := item
  cases init with
  | some e => exact expr_leads e sound stored ran
  | none =>
    obtain ⟨r, known, ran⟩ := zero_ok.1 ran
    cases d <;> cases known
    all_goals exact ⟨A, sound.compute ran rfl (by simp) (by simp [Request.operands])⟩

/-- Declared variables have filled slots. -/
theorem declare_leads {d : DataType} {items : List DeclItem} (sound : Sound A c)
    (stored : Stored A c env) (ran : declare env d items c = .ok (env', c')) :
    ∃ A', Leads A c A' c' ∧ Stored A' c' env' := by
  induction items generalizing env A c with
  | nil =>
    obtain ⟨rfl, rfl⟩ := declare_nil_ok.1 ran
    exact ⟨A, .refl sound, stored⟩
  | cons item items ih =>
    obtain ⟨v, _, _, _, ran, -, kept, rest⟩ := declare_cons_ok.1 ran
    obtain ⟨A₁, first, value⟩ := initial_leads sound stored ran
    have second := first.sound.slotted item.name d
    obtain ⟨third, slot⟩ := second.sound.store kept (second.keeps _ value)
    have before := first.trans (second.trans third)
    obtain ⟨A₂, fourth, stored'⟩ := ih third.sound ((before.stored stored).cons slot) rest
    exact ⟨A₂, before.trans fourth, stored'⟩

theorem assign_leads {p : Pos} {value target : Expr} {u : Unit} (sound : Sound A c)
    (stored : Stored A c env) (ran : assign env p value target c = .ok (u, c')) :
    ∃ A', Leads A c A' c' := by
  rcases assign_target ran with ⟨_, _, rfl⟩ | ⟨_, _, _, rfl⟩
  · obtain ⟨_, _, _, _, -, ran, kept⟩ := assign_ident_ok.1 ran
    obtain ⟨A₁, first, there⟩ := expr_leads _ sound stored ran
    obtain ⟨second, -⟩ := first.sound.store kept there
    exact ⟨A₁, first.trans second⟩
  · obtain ⟨a, _, k, _, _, _, _, array, index, ran, kept⟩ := assign_index_ok.1 ran
    obtain ⟨A₁, first, there⟩ := expr_leads _ sound stored array
    obtain ⟨A₂, second, there'⟩ := expr_leads _ first.sound (first.stored stored) index
    have both := first.trans second
    obtain ⟨A₃, third, there''⟩ := expr_leads _ second.sound (both.stored stored) ran
    obtain ⟨fourth, -⟩ := third.sound.compute kept rfl (by simp) (by
      simpa [Request.operands] using
        ⟨third.keeps _ (second.keeps _ there), third.keeps _ there', there''⟩)
    exact ⟨A₃, both.trans (third.trans fourth)⟩

/-- A statement that leaves the scope as it is. -/
theorem Leads.same_scope (leads : ∃ A', Leads A c A' c') (stored : Stored A c env) :
    ∃ A', Leads A c A' c' ∧ Stored A' c' env := by
  obtain ⟨A', leads⟩ := leads
  exact ⟨A', leads, leads.stored stored⟩

/-- The code of a statement leads to where it is left, with the slots of the variables
that are in scope there. -/
def Provides (s : Stmt) : Prop :=
  ∀ {env env' : Slots} {A : Nat → Fact → Prop} {c c' : Cursor}, Sound A c → Stored A c env →
    stmt env s c = .ok (env', c') → ∃ A', Leads A c A' c' ∧ Stored A' c' env'

variable {p : Pos} {x : Expr} {yes no body : Stmt}

theorem ifThen_leads (branch : Provides yes) : Provides (.ifThen p x yes) := by
  intro env env' A c c' sound stored run
  obtain ⟨rfl, v, c₁, _, _, _, _, _, cond, branched, ran, left, rfl⟩ := ifThen_ok.1 run
  obtain ⟨A₁, first, value⟩ := expr_leads _ sound stored cond
  obtain ⟨A₂, opened⟩ := Opened.of_blocks first.sound [.ifThen, .ifEnd]
  have second := (opened.emit branched (by
    simpa [Request.operands] using opened.still value) (by simp) (by simp [Request.targets])).moved
    (b := c₁.func.blocks.size) (Nat.le_refl _) (by simp)
  obtain ⟨A₃, third, -⟩ := branch second.sound (second.stored (first.stored stored)) ran
  have fourth := (second.leads third).leaveTo left (by omega) (by simp)
  exact Leads.same_scope ⟨A₃, first.trans (fourth.moved (by omega) (by simp)).done⟩ stored

theorem ifElse_leads (branch : Provides yes) (branch' : Provides no) :
    Provides (.ifElse p x yes no) := by
  intro env env' A c c' sound stored run
  obtain ⟨rfl, v, c₁, _, _, _, _, _, _, _, _, cond, branched, ran, left, ran', left', rfl⟩ :=
    ifElse_ok.1 run
  obtain ⟨A₁, first, value⟩ := expr_leads _ sound stored cond
  have stored₁ := first.stored stored
  obtain ⟨A₂, opened⟩ := Opened.of_blocks first.sound [.ifThen, .ifElse, .ifEnd]
  have second := (opened.emit branched (by
    simpa [Request.operands] using opened.still value) (by simp) (by simp [Request.targets])).moved
    (b := c₁.func.blocks.size) (Nat.le_refl _) (by simp)
  obtain ⟨A₃, third, -⟩ := branch second.sound (second.stored stored₁) ran
  have fourth := ((second.leads third).leaveTo left (by omega) (by simp)).moved
    (b := c₁.func.blocks.size + 1) (by omega) (by simp)
  obtain ⟨A₄, fifth, -⟩ := branch' fourth.sound (fourth.stored stored₁) ran'
  have sixth := (fourth.leads fifth).leaveTo left' (by omega) (by simp)
  exact Leads.same_scope ⟨A₄, first.trans (sixth.moved (by omega) (by simp)).done⟩ stored

theorem while_leads (round : Provides body) : Provides (.while p x body) := by
  intro env env' A c c' sound stored run
  obtain ⟨rfl, _, _, _, _, _, _, _, _, _, entered, cond, branched, ran, left, rfl⟩ :=
    while_ok.1 run
  obtain ⟨A₁, opened⟩ := Opened.of_blocks sound [.whileHead, .whileBody, .whileEnd]
  have first := (opened.emit entered (by simp [Request.operands]) (by simp)
    (by simp [Request.targets])).moved (b := c.func.blocks.size) (Nat.le_refl _) (by simp)
  obtain ⟨A₂, second, value⟩ := expr_leads _ first.sound (first.stored stored) cond
  have third := ((first.leads second).emit branched (by simpa [Request.operands] using value)
    (by simp) (by simp [Request.targets])).moved (b := c.func.blocks.size + 1) (by omega) (by simp)
  obtain ⟨A₃, fourth, -⟩ := round third.sound (third.stored stored) ran
  have fifth := (third.leads fourth).leaveTo left (Nat.le_refl _) (by simp)
  exact Leads.same_scope ⟨A₃, (fifth.moved (by omega) (by simp)).done⟩ stored

theorem forEach_leads {elem : Ty} {name : Text} (rest : Provides body) :
    Provides (.forEach p elem name x body) := by
  intro env env' A c c' sound stored run
  obtain ⟨rfl, _, _, _, _, c₂, _, _, _, _, _, _, d, _, _, _, _, array, start, entered, test,
    branched, -, -, element, ran, round, rfl⟩ := forEach_ok.1 run
  obtain ⟨A₁, first, value⟩ := expr_leads _ sound stored array
  obtain ⟨second, length, counter⟩ := first.sound.forCounter value start
  have before := first.trans second
  -- the head
  obtain ⟨A₂, opened⟩ := Opened.of_blocks before.sound [.forHead, .forBody, .forEnd]
  have head := (opened.emit entered (by simp [Request.operands]) (by simp)
    (by simp [Request.targets])).moved (b := c₂.func.blocks.size) (Nat.le_refl _) (by simp)
  obtain ⟨third, more⟩ := head.sound.forTest (head.still counter) (head.still length) test
  have head := (head.leads third).emit branched (by simpa [Request.operands] using more)
    (by simp) (by simp [Request.targets])
  -- the body
  have inner := head.moved (b := c₂.func.blocks.size + 1) (by omega) (by simp)
  have inner := inner.leads (inner.sound.slotted name d)
  obtain ⟨fourth, item⟩ := inner.sound.forElement (inner.still counter)
    (inner.still (second.keeps _ value)) element
  have inner := inner.leads fourth
  obtain ⟨A₃, last, -⟩ := rest inner.sound ((inner.stored (before.stored stored)).cons item) ran
  have inner := inner.leads last
  have ended := inner.rounds (inner.still counter) round (Nat.le_refl _) (by simp)
  exact Leads.same_scope ⟨A₃, before.trans (ended.moved (by omega) (by simp)).done⟩ stored

mutual

theorem stmt_leads : ∀ s : Stmt, Provides s
  | .block _ body => fun sound stored ran => by
    obtain ⟨rfl, _, ran⟩ := block_ok.1 ran
    obtain ⟨A₁, first, -⟩ := stmts_leads body sound stored ran
    exact ⟨A₁, first, first.stored stored⟩
  | .decl .. => fun sound stored ran => by
    obtain ⟨_, -, ran⟩ := decl_ok.1 ran
    exact declare_leads sound stored ran
  | .assign .. => fun sound stored ran => by
    obtain ⟨rfl, ran⟩ := assign_stmt_ok.1 ran
    exact Leads.same_scope (assign_leads sound stored ran) stored
  | .incr .. => fun sound stored ran => by
    obtain ⟨rfl, _, known, ran⟩ := incr_ok.1 ran
    exact Leads.same_scope ⟨_, sound.count (stored.lookup known) ran⟩ stored
  | .ifThen _ _ yes => ifThen_leads (stmt_leads yes)
  | .ifElse _ _ yes no => ifElse_leads (stmt_leads yes) (stmt_leads no)
  | .while _ _ body => while_leads (stmt_leads body)
  | .forEach _ _ _ _ body => forEach_leads (stmt_leads body)
  | .ret .. => fun sound stored ran => by
    obtain ⟨rfl, _, _, _, _, _, ran, left, marked⟩ := ret_ok.1 ran
    obtain ⟨A₁, first, value⟩ := expr_leads _ sound stored ran
    obtain ⟨second, -⟩ := first.sound.compute left rfl (by simp)
      (by simpa [Request.operands] using value)
    obtain ⟨third, -⟩ := second.sound.compute marked rfl (by simp) (by simp [Request.operands])
    exact Leads.same_scope ⟨A₁, first.trans (second.trans third)⟩ stored
  | .retVoid _ => fun sound stored ran => by
    obtain ⟨rfl, _, _, _, left, marked⟩ := retVoid_ok.1 ran
    obtain ⟨first, -⟩ := sound.compute left rfl (by simp) (by simp [Request.operands])
    obtain ⟨second, -⟩ := first.sound.compute marked rfl (by simp) (by simp [Request.operands])
    exact Leads.same_scope ⟨_, first.trans second⟩ stored
  | .expr .. => fun sound stored ran => by
    obtain ⟨rfl, _, ran⟩ := effect_ok.1 ran
    obtain ⟨A₁, first, -⟩ := expr_leads _ sound stored ran
    exact ⟨A₁, first, first.stored stored⟩
  | .empty _ => fun sound stored ran => by
    obtain ⟨rfl, rfl⟩ := empty_ok.1 ran
    exact ⟨_, .refl sound, stored⟩

theorem stmts_leads : ∀ (ss : List Stmt) {env env' : Slots} {A : Nat → Fact → Prop} {c c' : Cursor},
    Sound A c → Stored A c env → stmts env ss c = .ok (env', c') →
      ∃ A', Leads A c A' c' ∧ Stored A' c' env'
  | [], _, _, A, _, _, sound, stored, ran => by
    obtain ⟨rfl, rfl⟩ := stmts_nil_ok.1 ran
    exact ⟨A, .refl sound, stored⟩
  | s :: ss, _, _, _, _, _, sound, stored, ran => by
    obtain ⟨_, _, first, rest⟩ := stmts_cons_ok.1 ran
    obtain ⟨A₁, first, stored₁⟩ := stmt_leads s sound stored first
    obtain ⟨A₂, rest, stored₂⟩ := stmts_leads ss first.sound stored₁ rest
    exact ⟨A₂, first.trans rest, stored₂⟩

end

end Statements

/-! ## Functions -/

/-- Parameters have filled slots. -/
theorem storeParams_leads {env env' : Slots} {k : Nat} {ps : List (Param × DataType)}
    (sound : Sound A c) (stored : Stored A c env) (ran : storeParams env k ps c = .ok (env', c')) :
    Leads A c A c' ∧ Stored A c' env' := by
  induction ps generalizing env k c with
  | nil =>
    obtain ⟨rfl, rfl⟩ := storeParams_nil_ok.1 ran
    exact ⟨.refl sound, stored⟩
  | cons q ps ih =>
    obtain ⟨-, _, _, _, _, got, kept, rest⟩ := storeParams_cons_ok.1 ran
    have first := sound.slotted q.1.name q.2
    obtain ⟨second, value⟩ := first.sound.compute got rfl (by simp) (by simp [Request.operands])
    obtain ⟨third, slot⟩ := second.sound.store kept value
    have before := first.trans (second.trans third)
    obtain ⟨fourth, stored'⟩ := ih third.sound ((before.stored stored).cons slot) rest
    exact ⟨before.trans fourth, stored'⟩

/-- Whole bodies only use what is there. -/
theorem body_guarded {f : FuncDef} {u : Unit} (ran : body f c = .ok (u, c')) :
    ∃ A, c'.func.Guarded A := by
  obtain ⟨params, ret, _, _, _, _, -, -, kept, ran, closed⟩ := body_ok.1 ran
  have nothing : (opening f ret params).func.Guarded fun _ _ => False := by
    refine ⟨fun n => id, ?_, ?_⟩
    all_goals
      intro b n before behind i _ known
      cases known
  have start : Sound _ (opening f ret params) := ⟨opening_laid f ret params, nothing, Nat.one_pos⟩
  obtain ⟨first, stored⟩ := storeParams_leads start (by simp [Stored]) kept
  obtain ⟨A, second, -⟩ := stmts_leads _ first.sound stored ran
  rcases closed with ⟨-, rfl⟩ | ⟨-, n, ended⟩
  · exact ⟨A, second.sound.guarded⟩
  · refine ⟨A, (second.sound.compute ended ?_ ?_ ?_).1.sound.guarded⟩
    all_goals
      simp only [endRequest]
      split <;> simp [Request.operands, Request.targets]

end ImpCompiler.Lower

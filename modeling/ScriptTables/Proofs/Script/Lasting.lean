import ScriptTables.Proofs.Machine.Lasting

/-!
# What lasts through a script

By induction on the script, with two ways to call a value that agree; then, by induction on the levels
of calls that are left, with the machine's own.

* `Steady.runStep`                   a step of a script, with either way to call;
* `Steady.dispatch`, `nested_agree`  what runs in a call, and the count of it;
* `Lasting.runStep`, `Lasting.callAt`, `Lasting.call`   what lasts is kept by steps and calls.
-/

namespace ScriptTables

namespace Steady

section
variable {P : Machine → Prop} {call call' : Caller}

/-! ## operations -/

theorem tableOperand (v : Value) : Keeps P (ScriptTables.tableOperand v) := by
  unfold ScriptTables.tableOperand
  split
  · exact Keeps.pure _
  · exact Keeps.fail _

theorem nullary (hP : Steady P) (op : Nullary) : Keeps P op.run := by
  cases op with
  | globals => exact (Keeps.observe _).bind fun id => Keeps.pure _
  | limits => exact (Keeps.observe _).bind fun limits => Keeps.pure _
  | openLibrary => exact hP.openLibrary.bind fun id => Keeps.pure _
  | libraryNames => exact Keeps.pure _
  | libraryFunction name => exact Keeps.pure _
  | getGlobal name => exact Keeps.bind (Keeps.observe _) fun v => Keeps.pure _
  | containsCapabilities a b => exact Keeps.pure _

theorem clone (hP : Steady P) (id : TableId) :
    Keeps P (do
      let t ← EvalM.readHeap fun h => h.table id
      EvalM.newTable t) :=
  fun m hm => hP.heap m _ (.copyTable id) hm

theorem readOperand {α : Type} (v : Value) (f : TableId → Heap → α) :
    Keeps P (do
      let id ← ScriptTables.tableOperand v
      EvalM.readHeap (f id)) :=
  (tableOperand v).bind fun _ => Keeps.observe _

theorem unary (hP : Steady P) (hcall : Caller.Agree P call call') (v : Value) (op : Unary) :
    Agree P (op.run call v) (op.run call' v) := by
  cases op with
  | rawGetString key => exact (readOperand v _).agree
  | border => exact (readOperand v _).agree
  | entryCount => exact (readOperand v _).agree
  | elements => exact (readOperand v _).agree
  | clone =>
    refine (tableOperand v).agree.bind_eq fun id => ?_
    exact (hP.clone id).agree.bind_eq fun copy => Agree.pure [Value.table copy]
  | length => exact (length hcall v).bind_eq fun n => Agree.pure _
  | checkStack => exact (Agree.observe _).bind_eq fun b => Agree.pure _
  | setGlobal name => exact (hP.setGlobal name v).agree.bind_eq fun _ => Agree.pure _
  | floatToInteger => cases v <;> exact Agree.pure _
  | typeName | isNil | isTruthy | toInteger | toText | formatFloat => exact Agree.pure _
  | display | inspect | metatable | rawLength | metamethod => exact Agree.observe _

theorem binary (hP : Steady P) (hcall : Caller.Agree P call call') (a b : Value) (op : Binary) :
    Agree P (op.run call a b) (op.run call' a b) := by
  have hhost := hP.host hcall
  cases op with
  | arithmetic f => exact Agree.pure _
  | equal => exact Agree.pure _
  | hashEqual => exact Agree.pure _
  | rawGet => exact (readOperand a _).agree
  | rawGetInteger => exact (readOperand a _).agree
  | rawSetString key =>
    refine (tableOperand a).agree.bind_eq fun id => ?_
    exact (hP.rawSet id _ b).agree.bind_eq fun _ => Agree.pure _
  | index => exact (index hcall a b).bind_eq fun v => Agree.pure _
  | getInteger => exact (index hcall a _).bind_eq fun v => Agree.pure _
  | lessThan => exact (lessThan hcall a b).bind_eq fun less => Agree.pure _
  | setMetatable => exact (hP.setMetatable a _).agree.bind_eq fun _ => Agree.pure _
  | remove => exact (hhost.companions.remove rfl _).bind_same fun removed _ => Agree.pure _
  | sort => exact (hhost.sort a b).bind_eq fun _ => Agree.pure _

theorem ternary (hP : Steady P) (hcall : Caller.Agree P call call') (a b c : Value)
    (op : Ternary) : Agree P (op.run call a b c) (op.run call' a b c) := by
  have hhost := (hP.host hcall).companions
  cases op with
  | rawSet =>
    refine (tableOperand a).agree.bind_eq fun id => ?_
    exact (hP.rawSet id b c).agree.bind_eq fun _ => Agree.pure _
  | rawSetInteger =>
    refine (tableOperand a).agree.bind_eq fun id => ?_
    exact (hP.rawSet id _ c).agree.bind_eq fun _ => Agree.pure _
  | setIndex => exact (hP.setIndex hcall a b c).bind_eq fun _ => Agree.pure _
  | setInteger => exact (hP.setIndex hcall a _ c).bind_eq fun _ => Agree.pure _
  | insert => exact (hhost.insert rfl _ trivial).bind_eq fun _ => Agree.pure _
  | concat separator => exact (hhost.concat rfl separator _ _).bind_eq fun s => Agree.pure _
  | unpack => exact (hhost.unpack rfl _ _).mono fun _ _ hvs => hvs.1

theorem runMove (hP : Steady P) (hcall : Caller.Agree P call call') (source : Value)
    (target : Option Value) (first last destination : Value) :
    Agree P (ScriptTables.runMove call source target first last destination)
      (ScriptTables.runMove call' source target first last destination) :=
  ((hP.host hcall).move source _ target).bind_eq fun v => Agree.pure [v]

theorem collection (hP : Steady P) (hcall : Caller.Agree P call call')
    (r : CheckRequest) (v : Option Value) :
    Agree P (r.collection call v) (r.collection call' v) :=
  (hP.host hcall).checkCollection v _ _ _

theorem raiseWrapped {α : Type} (fault : Fault) (around : List Fault) :
    Keeps P (ScriptTables.raiseWrapped fault around : EvalM α) := Keeps.throw _

theorem bindName (hP : Steady P) (name : String) (v : Value) :
    Keeps P (ScriptTables.bindName name v) := hP.modifySession _

theorem runLoop (hP : Steady P) (counter : String) {body body' : EvalM (Option (List Value))}
    (hbody : Agree P body body') (n : Nat) :
    ∀ i, Agree P (ScriptTables.runLoop counter body n i)
      (ScriptTables.runLoop counter body' n i) := by
  induction n with
  | zero => exact fun i => Agree.pure none
  | succ n ih =>
    intro i
    refine (hP.bindName counter _).agree.bind_eq fun _ => hbody.bind_eq fun finished => ?_
    cases finished with
    | some vs => exact Agree.pure (some vs)
    | none => exact ih (i + 1)

theorem attempted {body body' : EvalM (Option (List Value))} (hbody : Agree P body body') :
    Agree P (ScriptTables.attempted body) (ScriptTables.attempted body') :=
  InStep.tryCatch (hbody.bind_eq fun _ => Agree.pure _) fun _ => Agree.pure _

/-! ## operands and steps -/

mutual

theorem runExpr (hP : Steady P) (hcall : Caller.Agree P call call') :
    ∀ e : Expr, Agree P (ScriptTables.runExpr call e) (ScriptTables.runExpr call' e)
  | .value v => Agree.pure v
  | .var _ => Agree.observe _
  | .argument _ => Agree.observe _
  | .result s => (runStep hP hcall s).bind_eq fun outcome => Agree.pure _
  | .table items entries metatable => by
    refine (runItems hP hcall items).bind_eq fun vs => ?_
    refine Alike.bind_same (runEntries hP hcall entries _ (Table.WellFormed.ofList vs)) fun t ht => ?_
    refine (runOptional hP hcall metatable).bind_eq fun v => ?_
    exact (hP.newTable (ht.with_metatable _)).agree.bind_eq fun id => Agree.pure (Value.table id)
  | .userdata metatable => by
    refine (runExpr hP hcall metatable).bind_eq fun v => ?_
    exact (hP.newUserdata _).agree.bind_eq fun id => Agree.pure (Value.userdata id)
  | .function _ _ => (hP.newFunction _).agree.bind_eq fun id => Agree.pure (Value.function id)

theorem runOptional (hP : Steady P) (hcall : Caller.Agree P call call') :
    ∀ e : Option Expr, Agree P (ScriptTables.runOptional call e) (ScriptTables.runOptional call' e)
  | none => Agree.pure none
  | some e => (runExpr hP hcall e).bind_eq fun v => Agree.pure (some v)

/-- a table that is not on the heap yet is well-formed all along -/
theorem runEntries (hP : Steady P) (hcall : Caller.Agree P call call') :
    ∀ (entries : List (Expr × Expr)) (t : Table), t.WellFormed →
      InStep (Same P) (fun t t' => t = t' ∧ t.WellFormed) (ScriptTables.runEntries call entries t)
        (ScriptTables.runEntries call' entries t)
  | [], _, ht => Alike.pure ⟨rfl, ht⟩
  | entry :: entries, t, ht => by
    refine Alike.bind_same (runEntry hP hcall entry t ht) fun t' ht' => ?_
    exact runEntries hP hcall entries t' ht'

theorem runEntry (hP : Steady P) (hcall : Caller.Agree P call call') :
    ∀ (entry : Expr × Expr) (t : Table), t.WellFormed →
      InStep (Same P) (fun t t' => t = t' ∧ t.WellFormed) (ScriptTables.runEntry call entry t)
        (ScriptTables.runEntry call' entry t)
  | (key, value), t, ht => by
    refine (runExpr hP hcall key).bind_eq fun k => ?_
    refine (runExpr hP hcall value).bind_eq fun v => ?_
    cases hk : Key.ofValue? k with
    | ok key =>
      rw [Table.set_of_ok hk]
      exact Alike.pure ⟨rfl, ht.setKey (Key.isNormal_of_ofValue? hk) v⟩
    | error fault =>
      rw [Table.set_of_error hk]
      exact InStep.fail fault

theorem runItem (hP : Steady P) (hcall : Caller.Agree P call call') :
    ∀ item : Item, Agree P (ScriptTables.runItem call item) (ScriptTables.runItem call' item)
  | .single e => (runExpr hP hcall e).bind_eq fun v => Agree.pure [v]
  | .rest _ => Agree.observe _

theorem runItems (hP : Steady P) (hcall : Caller.Agree P call call') :
    ∀ items : List Item, Agree P (ScriptTables.runItems call items)
      (ScriptTables.runItems call' items)
  | [] => Agree.pure []
  | item :: items => by
    refine (runItem hP hcall item).bind_eq fun vs => ?_
    exact (runItems hP hcall items).bind_eq fun ws => Agree.pure (vs ++ ws)

theorem runOp (hP : Steady P) (hcall : Caller.Agree P call call') :
    ∀ op : Op, Agree P (ScriptTables.runOp call op) (ScriptTables.runOp call' op)
  | .give e => (runExpr hP hcall e).bind_eq fun v => Agree.pure _
  | .log items => by
    refine (runItems hP hcall items).bind_eq fun vs => Alike.bind_eq ?_ fun _ => Agree.pure _
    exact (Keeps.update fun m hm => hP.session m _ hm).agree
  | .branch condition whenTrue whenFalse => by
    refine (runExpr hP hcall condition).bind_eq fun v => ?_
    split
    · exact (runSteps hP hcall whenTrue).bind_eq fun finished => Agree.pure _
    · exact (runSteps hP hcall whenFalse).bind_eq fun finished => Agree.pure _
  | .loop n counter body =>
    (hP.runLoop counter (runSteps hP hcall body) n 1).bind_eq fun finished => Agree.pure _
  | .finish items => (runItems hP hcall items).bind_eq fun vs => Agree.pure _
  | .attempt body => (attempted (runSteps hP hcall body)).bind_eq fun vs => Agree.pure _
  | .count s => (runStep hP hcall s).bind_eq fun outcome => Agree.pure _
  | .raise fault around => (raiseWrapped fault around).agree
  | .raiseWrongType _ _ _ got around =>
    (runOptional hP hcall got).bind_eq fun v => (raiseWrapped _ around).agree
  | .nullary op => (hP.nullary op).agree.bind_eq fun vs => Agree.pure _
  | .unary op a => by
    refine (runExpr hP hcall a).bind_eq fun v => ?_
    exact (hP.unary hcall v op).bind_eq fun vs => Agree.pure _
  | .binary op a b => by
    refine (runExpr hP hcall a).bind_eq fun v => ?_
    refine (runExpr hP hcall b).bind_eq fun w => ?_
    exact (hP.binary hcall v w op).bind_eq fun vs => Agree.pure _
  | .ternary op a b c => by
    refine (runExpr hP hcall a).bind_eq fun v => ?_
    refine (runExpr hP hcall b).bind_eq fun w => ?_
    refine (runExpr hP hcall c).bind_eq fun u => ?_
    exact (hP.ternary hcall v w u op).bind_eq fun vs => Agree.pure _
  | .call callee arguments => by
    refine (runExpr hP hcall callee).bind_eq fun f => ?_
    refine (runItems hP hcall arguments).bind_eq fun args => ?_
    exact (hcall f args).bind_eq fun vs => Agree.pure _
  | .callFirst callee arguments => by
    refine (runExpr hP hcall callee).bind_eq fun f => ?_
    refine (runItems hP hcall arguments).bind_eq fun args => ?_
    exact (callFirst hcall f args).bind_eq fun v => Agree.pure _
  | .library f arguments => by
    refine (runItems hP hcall arguments).bind_eq fun args => ?_
    exact ((hP.host hcall).library f args).bind_eq fun vs => Agree.pure _
  | .pack items => by
    refine (runItems hP hcall items).bind_eq fun vs => ?_
    exact ((hP.host hcall).pack vs).bind_eq fun id => Agree.pure _
  | .move source target first last destination => by
    refine (runExpr hP hcall source).bind_eq fun s => ?_
    refine (runOptional hP hcall target).bind_eq fun t => ?_
    refine (runExpr hP hcall first).bind_eq fun f => ?_
    refine (runExpr hP hcall last).bind_eq fun e => ?_
    refine (runExpr hP hcall destination).bind_eq fun d => ?_
    exact (hP.runMove hcall s t f e d).bind_eq fun vs => Agree.pure _
  | .check request value => by
    refine (runOptional hP hcall value).bind_eq fun v => ?_
    refine Alike.bind_eq ?_ fun vs => Agree.pure _
    exact (hP.collection hcall request v).bind_eq fun c => Agree.pure _
  | .collectionBorder request value => by
    refine (runOptional hP hcall value).bind_eq fun v => ?_
    refine Alike.bind_eq ?_ fun vs => Agree.pure _
    refine (hP.collection hcall request v).bind_eq fun c => ?_
    exact ((hP.host hcall).collectionBorder c).bind_eq fun n => Agree.pure _
  | .collectionGet request value key => by
    refine (runOptional hP hcall value).bind_eq fun v => ?_
    refine (hP.collection hcall request v).bind_eq fun c => ?_
    refine (runExpr hP hcall key).bind_eq fun k => ?_
    refine Alike.bind_eq ?_ fun vs => Agree.pure _
    refine Alike.bind ((hP.host hcall).companions.get c c rfl _) fun v w hvw => ?_
    exact Alike.pure (congrArg (fun v => [v]) hvw.1)
  | .collectionSet request value key new => by
    refine (runOptional hP hcall value).bind_eq fun v => ?_
    refine (hP.collection hcall request v).bind_eq fun c => ?_
    refine (runExpr hP hcall key).bind_eq fun k => ?_
    refine (runExpr hP hcall new).bind_eq fun w => ?_
    refine Alike.bind_eq ?_ fun vs => Agree.pure _
    exact ((hP.host hcall).companions.set c c rfl _ w trivial).bind_eq fun _ => Agree.pure _
  | .sameCollection request a b => by
    refine (runOptional hP hcall a).bind_eq fun v => ?_
    refine (hP.collection hcall request v).bind_eq fun c => ?_
    refine (runOptional hP hcall b).bind_eq fun w => ?_
    exact (hP.collection hcall request w).bind_eq fun d => Agree.pure _

theorem runStep (hP : Steady P) (hcall : Caller.Agree P call call') :
    ∀ s : Step, Agree P (ScriptTables.runStep call s) (ScriptTables.runStep call' s)
  | .mk op target => by
    refine (runOp hP hcall op).bind_eq fun outcome => ?_
    cases outcome with
    | finished vs => exact Agree.pure _
    | results vs =>
      cases target with
      | some name => exact (hP.bindName name _).agree.bind_eq fun _ => Agree.pure _
      | none => exact Agree.pure _

theorem runSteps (hP : Steady P) (hcall : Caller.Agree P call call') :
    ∀ steps : List Step, Agree P (ScriptTables.runSteps call steps)
      (ScriptTables.runSteps call' steps)
  | [] => Agree.pure none
  | s :: steps => by
    refine (runStep hP hcall s).bind_eq fun outcome => ?_
    cases outcome with
    | finished vs => exact Agree.pure _
    | results vs => exact runSteps hP hcall steps

end

/-! ## calls -/

theorem swapFrame (hP : Steady P) (frame : Option Frame) : Keeps P (ScriptTables.swapFrame frame) :=
  fun m hm => hP.session m _ hm

theorem inFrame {α : Type} (hP : Steady P) (frame : Frame) {x y : EvalM α} (h : Agree P x y) :
    Agree P (ScriptTables.inFrame frame x) (ScriptTables.inFrame frame y) := by
  refine (hP.swapFrame _).agree.bind_eq fun old => ?_
  refine Alike.bind_eq (InStep.tryCatch h fun e => ?_) fun a => ?_
  · exact (hP.swapFrame old).agree.bind_eq fun _ => InStep.throw e
  · exact (hP.swapFrame old).agree.bind_eq fun _ => Agree.pure a

theorem dispatch (hP : Steady P) (hcall : Caller.Agree P call call') (callee : Value)
    (args : List Value) :
    Agree P (EvalM.dispatch call callee args) (EvalM.dispatch call' callee args) := by
  unfold EvalM.dispatch
  split
  · refine (Agree.observe _).bind_eq fun code => ?_
    cases code with
    | library f => exact (hP.host hcall).library f args
    | script body =>
      refine hP.inFrame _ ?_
      exact (hP.runSteps hcall body).bind_eq fun finished => Agree.pure _
  · refine (Agree.observe _).bind_eq fun handler => ?_
    split
    · exact InStep.fail _
    · exact hcall handler _

end

end Steady

theorem nested_agree {P Q : Machine → Prop} {α : Type} {x y : EvalM α}
    (henter : ∀ m, P m → Q { m with depth := m.depth + 1 })
    (hleave : ∀ m, Q m → P { m with depth := m.depth - 1 }) (h : Agree Q x y) :
    Agree P (EvalM.nested x) (EvalM.nested y) := by
  intro s t hst
  obtain ⟨rfl, hs⟩ := hst
  rcases InStep.run h (s := { s with depth := s.depth + 1 }) ⟨rfl, henter s hs⟩ with
    ⟨a, s', b, t', hx, hy, rfl, rfl, hs'⟩ | ⟨e, s', t', hx, hy, rfl, hs'⟩
  · rw [EStateM.run] at hx hy ⊢
    rw [EStateM.run, EvalM.nested, EvalM.nested, hx, hy]
    exact ⟨rfl, rfl, hleave s' hs'⟩
  · rw [EStateM.run] at hx hy ⊢
    rw [EStateM.run, EvalM.nested, EvalM.nested, hx, hy]
    exact ⟨rfl, rfl, hleave s' hs'⟩

/-! ## one way to call -/

namespace Lasting

variable {P : Machine → Prop}

theorem runStep {call : Caller} (hP : Lasting P)
    (hcall : ∀ callee arguments, Keeps P (call callee arguments)) (s : Step) :
    Keeps P (ScriptTables.runStep call s) :=
  Agree.keeps (hP.toSteady.runStep (fun callee arguments => (hcall callee arguments).agree) s)

theorem callAt (hP : Lasting P) (level : Nat) :
    ∀ callee args, Keeps P (EvalM.callAt level callee args) := by
  induction level with
  | zero => exact fun callee args => Keeps.fail _
  | succ level ih =>
    intro callee args
    refine (Keeps.observe _).bind fun atLimit => ?_
    split
    · exact Keeps.fail _
    · have hdispatch := hP.toSteady.dispatch (fun callee args => (ih callee args).agree) callee args
      exact (nested_agree (fun m hm => hP.depth m _ hm) (fun m hm => hP.depth m _ hm)
        hdispatch).keeps

theorem call (hP : Lasting P) (callee : Value) (args : List Value) :
    Keeps P (EvalM.call callee args) :=
  (Keeps.observe _).bind fun levels => hP.callAt levels callee args

end Lasting

end ScriptTables

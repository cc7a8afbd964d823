import Mathlib.Data.List.Nodup
import Tricode.Proofs.Lowering.Code
import Tricode.Proofs.Machine

/-!
# Where functions and labels stand in a listing

The labels of a listing are numbered without gaps and each stands in one place
(`Function.labels_codeAll`), so that a jump finds the label it means. In the same way a function
whose name no other function has is entered at its own code (`Machine.entry_codeAll`), and what
stands between its beginning and its end is the code of its body (`block_codeAll`).
-/

namespace Tricode

namespace Instr

/-- The number of a label. -/
def label? : Instr → Option Nat
  | label n => some n
  | _ => none

/-- The name of a function that begins. -/
def start? : Instr → Option String
  | functionStart name => some name
  | _ => none

/-- The instruction stands inside a function: it neither begins nor ends one. -/
def isInner : Instr → Bool
  | functionStart _ => false
  | functionEnd _ => false
  | _ => true

/-- The instruction computes something and goes on: it neither jumps nor marks a place. -/
def isStraight : Instr → Bool
  | copy .. => true
  | param .. => true
  | binary .. => true
  | unary .. => true
  | call .. => true
  | _ => false

end Instr

namespace Expr

mutual

/-- The `code` of an expression goes straight on: it has no jumps and no labels, and no function
begins or ends in it. -/
theorem isStraight_of_mem_code : ∀ (e : Expr) (k : Nat), ∀ i ∈ e.code k, i.isStraight = true
  | literal .., k => by simp [code]
  | ident .., k => by simp [code]
  | unary op e pos, k => by
    have he := isStraight_of_mem_code e k
    simp only [code, List.forall_mem_append, List.forall_mem_singleton]
    exact ⟨he, rfl⟩
  | binary op l r pos, k => by
    have hl := isStraight_of_mem_code l k
    have hr := isStraight_of_mem_code r (k + l.temps)
    simp only [code, List.forall_mem_append, List.forall_mem_singleton]
    exact ⟨hl, hr, rfl⟩
  | call f args pos, k => by
    have hargs := isStraight_of_mem_codeAll args k
    simp only [code, List.forall_mem_append, List.forall_mem_singleton, List.forall_mem_map]
    exact ⟨hargs, fun _ _ => rfl, rfl⟩
  | assign x e pos, k => by
    have he := isStraight_of_mem_code e k
    simp only [code, List.forall_mem_append, List.forall_mem_singleton]
    exact ⟨he, rfl⟩

theorem isStraight_of_mem_codeAll : ∀ (es : List Expr) (k : Nat),
    ∀ i ∈ codeAll k es, i.isStraight = true
  | [], k => by simp [codeAll]
  | e :: es, k => by
    have he := isStraight_of_mem_code e k
    have hes := isStraight_of_mem_codeAll es (k + e.temps)
    simp only [codeAll, List.forall_mem_append]
    exact ⟨he, hes⟩

end

/-- There are no labels in the `code` of an expression. -/
theorem filterMap_label?_code (e : Expr) (k : Nat) : (e.code k).filterMap Instr.label? = [] := by
  rw [List.filterMap_eq_nil_iff]
  intro i hi
  have hstraight := isStraight_of_mem_code e k i hi
  cases i <;> simp_all [Instr.isStraight, Instr.label?]

theorem isInner_of_mem_code (e : Expr) (k : Nat) : ∀ i ∈ e.code k, i.isInner = true := by
  intro i hi
  have hstraight := isStraight_of_mem_code e k i hi
  cases i <;> simp_all [Instr.isStraight, Instr.isInner]

end Expr

/-! ### Labels -/

mutual

/-- The `labels` in the `code` of a statement are those that it draws, each in one place. -/
theorem Stmt.labels_code : ∀ (s : Stmt) (k l : Nat),
    ((s.code k l).filterMap Instr.label?).Perm (List.range' l s.labels)
  | .expr e pos, k, l => by simp [Stmt.code, Stmt.labels, Expr.filterMap_label?_code]
  | .declare t x none pos, k, l => by simp [Stmt.code, Stmt.labels, Instr.label?]
  | .declare t x (some e) pos, k, l => by
    simp [Stmt.code, Stmt.labels, Expr.filterMap_label?_code, Instr.label?]
  | .ret none pos, k, l => by simp [Stmt.code, Stmt.labels, Instr.label?]
  | .ret (some e) pos, k, l => by
    simp [Stmt.code, Stmt.labels, Expr.filterMap_label?_code, Instr.label?]
  | .ifThen c b pos, k, l => by
    have hb := Block.labels_code b (k + c.temps) (l + 1)
    simp only [Stmt.code, Stmt.labels, List.filterMap_append, Expr.filterMap_label?_code,
      List.filterMap_cons, Instr.label?, List.filterMap_nil, List.nil_append, List.range'_succ]
    -- the label drawn first stands last, behind the body
    exact (List.perm_append_singleton _ _).trans (hb.cons l)
  | .ifElse c b a pos, k, l => by
    have hb := Block.labels_code b (k + c.temps) (l + 2)
    have ha := Block.labels_code a (k + c.temps + b.temps) (l + 2 + b.labels)
    simp only [Stmt.code, Stmt.labels, List.filterMap_append, Expr.filterMap_label?_code,
      List.filterMap_cons, Instr.label?, List.filterMap_nil, List.nil_append, List.range'_succ]
    -- the label between the blocks was drawn first, the one behind them second
    refine List.perm_middle.trans (List.Perm.cons l ?_)
    rw [← List.append_assoc, ← List.range'_append_1]
    exact (List.perm_append_singleton _ _).trans ((hb.append ha).cons (l + 1))
  | .loop c b pos, k, l => by
    have hb := Block.labels_code b (k + c.temps) (l + 2)
    simp only [Stmt.code, Stmt.labels, List.filterMap_append, Expr.filterMap_label?_code,
      List.filterMap_cons, Instr.label?, List.filterMap_nil, List.nil_append, List.range'_succ]
    exact ((List.perm_append_singleton _ _).trans (hb.cons (l + 1))).cons l

/-- The `labels` in the `code` of a block are those that it draws, each in one place. -/
theorem Block.labels_code : ∀ (b : Block) (k l : Nat),
    ((b.code k l).filterMap Instr.label?).Perm (List.range' l b.labels)
  | .mk ss _, k, l => Stmt.labels_codeAll ss k l

theorem Stmt.labels_codeAll : ∀ (ss : List Stmt) (k l : Nat),
    ((Stmt.codeAll k l ss).filterMap Instr.label?).Perm (List.range' l (Stmt.labelsAll ss))
  | [], k, l => by simp [Stmt.codeAll, Stmt.labelsAll]
  | s :: ss, k, l => by
    have hs := Stmt.labels_code s k l
    have hss := Stmt.labels_codeAll ss (k + s.temps) (l + s.labels)
    rw [Stmt.codeAll, Stmt.labelsAll, List.filterMap_append, ← List.range'_append_1]
    exact hs.append hss

end

/-- The `labels` in the `code` of a function are those that its body draws. -/
theorem Function.labels_code (f : Function) (k l : Nat) :
    ((f.code k l).filterMap Instr.label?).Perm (List.range' l f.body.labels) := by
  rw [Function.code, List.filterMap_cons, List.filterMap_append]
  simpa only [List.filterMap_cons, List.filterMap_nil, Instr.label?, List.append_nil]
    using f.body.labels_code k l

/-- The labels of `codeAll` are numbered without gaps, and none stands in two places. -/
theorem Function.labels_codeAll (fs : List Function) (k l : Nat) :
    ((Function.codeAll k l fs).filterMap Instr.label?).Perm
      (List.range' l (Function.labelsAll fs)) := by
  induction fs generalizing k l with
  | nil => simp [Function.codeAll, Function.labelsAll]
  | cons f fs ih =>
    rw [Function.codeAll, Function.labelsAll, List.filterMap_append, ← List.range'_append_1]
    exact (f.labels_code k l).append (ih (k + f.body.temps) (l + f.body.labels))

/-! ### Beginnings and ends of functions -/

mutual

/-- No function begins or ends in the `code` of a statement. -/
theorem Stmt.isInner_of_mem_code : ∀ (s : Stmt) (k l : Nat), ∀ i ∈ s.code k l, i.isInner = true
  | .expr e pos, k, l => Expr.isInner_of_mem_code e k
  | .declare t x none pos, k, l => by simp [Stmt.code, Instr.isInner]
  | .declare t x (some e) pos, k, l => by
    have he := Expr.isInner_of_mem_code e k
    simp only [Stmt.code, List.forall_mem_append, List.forall_mem_singleton]
    exact ⟨he, rfl⟩
  | .ret none pos, k, l => by simp [Stmt.code, Instr.isInner]
  | .ret (some e) pos, k, l => by
    have he := Expr.isInner_of_mem_code e k
    simp only [Stmt.code, List.forall_mem_append, List.forall_mem_singleton]
    exact ⟨he, rfl⟩
  | .ifThen c b pos, k, l => by
    have hc := Expr.isInner_of_mem_code c k
    have hb := Block.isInner_of_mem_code b (k + c.temps) (l + 1)
    simp only [Stmt.code, List.forall_mem_append, List.forall_mem_cons]
    exact ⟨hc, rfl, hb, rfl, by simp⟩
  | .ifElse c b a pos, k, l => by
    have hc := Expr.isInner_of_mem_code c k
    have hb := Block.isInner_of_mem_code b (k + c.temps) (l + 2)
    have ha := Block.isInner_of_mem_code a (k + c.temps + b.temps) (l + 2 + b.labels)
    simp only [Stmt.code, List.forall_mem_append, List.forall_mem_cons]
    exact ⟨hc, rfl, hb, rfl, rfl, ha, rfl, by simp⟩
  | .loop c b pos, k, l => by
    have hc := Expr.isInner_of_mem_code c k
    have hb := Block.isInner_of_mem_code b (k + c.temps) (l + 2)
    simp only [Stmt.code, List.forall_mem_append, List.forall_mem_cons]
    exact ⟨rfl, hc, rfl, hb, rfl, rfl, by simp⟩

/-- No function begins or ends in the `code` of a block. -/
theorem Block.isInner_of_mem_code : ∀ (b : Block) (k l : Nat), ∀ i ∈ b.code k l, i.isInner = true
  | .mk ss _, k, l => Stmt.isInner_of_mem_codeAll ss k l

theorem Stmt.isInner_of_mem_codeAll : ∀ (ss : List Stmt) (k l : Nat),
    ∀ i ∈ Stmt.codeAll k l ss, i.isInner = true
  | [], k, l => by simp [Stmt.codeAll]
  | s :: ss, k, l => by
    have hs := Stmt.isInner_of_mem_code s k l
    have hss := Stmt.isInner_of_mem_codeAll ss (k + s.temps) (l + s.labels)
    simp only [Stmt.codeAll, List.forall_mem_append]
    exact ⟨hs, hss⟩

end

/-- No function begins in the `code` of a block. -/
theorem Block.filterMap_start?_code (b : Block) (k l : Nat) :
    (b.code k l).filterMap Instr.start? = [] := by
  rw [List.filterMap_eq_nil_iff]
  intro i hi
  have hinner := b.isInner_of_mem_code k l i hi
  cases i <;> simp_all [Instr.isInner, Instr.start?]

/-- The functions that begin in `codeAll` are those of the program, in their order. -/
theorem Function.filterMap_start?_codeAll (fs : List Function) (k l : Nat) :
    (Function.codeAll k l fs).filterMap Instr.start? = fs.map Function.name := by
  induction fs generalizing k l with
  | nil => rfl
  | cons f fs ih =>
    have hbody := Block.filterMap_start?_code f.body k l
    simp only [Function.codeAll, Function.code, List.filterMap_append, List.filterMap_cons,
      Instr.start?, hbody, List.filterMap_nil, List.append_nil, ih, List.map_cons,
      List.singleton_append]

/-- The `codeAll` of functions and of those behind them. -/
theorem Function.codeAll_append (fs gs : List Function) (k l : Nat) :
    ∃ l', Function.codeAll k l (fs ++ gs) =
      Function.codeAll k l fs ++ Function.codeAll (k + Function.tempsAll fs) l' gs := by
  induction fs generalizing k l with
  | nil => exact ⟨l, rfl⟩
  | cons f fs ih =>
    obtain ⟨l', happend⟩ := ih (k + f.body.temps) (l + f.body.labels)
    refine ⟨l', ?_⟩
    rw [List.cons_append, Function.codeAll, happend, Function.codeAll, Function.tempsAll,
      List.append_assoc, Nat.add_assoc]

/-- The `code` of a function begins where the code of those before it ends. -/
theorem Function.at_codeAll (before after : List Function) (f : Function) (k l : Nat) :
    ∃ pc l', Machine.At (Function.codeAll k l (before ++ f :: after)) pc
      (f.code (k + Function.tempsAll before) l') := by
  obtain ⟨l', happend⟩ := Function.codeAll_append before (f :: after) k l
  refine ⟨(Function.codeAll k l before).length, l', ?_⟩
  rw [happend, Machine.At, List.drop_left]
  exact List.prefix_append _ _

/-! ### Blocks -/

/-- The block of a function in a listing: from where the function begins to where it ends. -/
def block (code : List Instr) (name : String) : List Instr :=
  (code.dropWhile (· ≠ .functionStart name)).takeWhile (· ≠ .functionEnd name)

/-- The block of a function is its own `code`, if no function before it has its name. -/
theorem block_codeAll {before : List Function} (after : List Function) {f : Function}
    (hname : f.name ∉ before.map Function.name) (k l : Nat) :
    ∃ l', block (Function.codeAll k l (before ++ f :: after)) f.name =
      .functionStart f.name :: f.body.code (k + Function.tempsAll before) l' := by
  obtain ⟨l', happend⟩ := Function.codeAll_append before (f :: after) k l
  refine ⟨l', ?_⟩
  -- in front of the function no other begins under its name
  have hbefore : ∀ i ∈ Function.codeAll k l before, decide (i ≠ .functionStart f.name) = true := by
    intro i hi
    rw [decide_eq_true_iff]
    rintro rfl
    rw [← Function.filterMap_start?_codeAll before k l] at hname
    exact hname (List.mem_filterMap.2 ⟨_, hi, rfl⟩)
  -- and its own end is the first behind its beginning
  have hbody : ∀ i ∈ f.body.code (k + Function.tempsAll before) l',
      decide (i ≠ .functionEnd f.name) = true := by
    intro i hi
    rw [decide_eq_true_iff]
    rintro rfl
    exact absurd (f.body.isInner_of_mem_code _ _ _ hi) (by simp [Instr.isInner])
  rw [block, happend, List.dropWhile_append_of_pos hbefore, Function.codeAll, Function.code,
    List.cons_append, List.append_assoc, List.dropWhile_cons_of_neg (by simp),
    List.takeWhile_cons_of_pos (by simp), List.takeWhile_append_of_pos hbody, List.singleton_append,
    List.takeWhile_cons_of_neg (by simp), List.append_nil]

/-! ### Finding places -/

namespace Machine

/-- An instruction is found where it stands, if no other instruction of the listing has its mark. -/
theorem findIdx?_of_nodup {α : Type} {mark : Instr → Option α} {code : List Instr}
    (hnodup : (code.filterMap mark).Nodup) {pc : Nat} {i : Instr} {a : α} (hi : code[pc]? = some i)
    (hmark : mark i = some a) : code.findIdx? (fun j => j = i) = some pc := by
  induction code generalizing pc with
  | nil => simp at hi
  | cons j code ih =>
    cases pc with
    | zero =>
      obtain rfl : j = i := by simpa using hi
      simp [List.findIdx?_cons]
    | succ pc =>
      rw [List.getElem?_cons_succ] at hi
      -- an earlier instruction with the same mark would be a second one
      have hne : j ≠ i := by
        rintro rfl
        rw [List.filterMap_cons_some hmark, List.nodup_cons] at hnodup
        exact hnodup.1 (List.mem_filterMap.2 ⟨j, List.mem_of_getElem? hi, hmark⟩)
      have htail : (code.filterMap mark).Nodup :=
        hnodup.sublist ((List.sublist_cons_self j code).filterMap mark)
      simp [List.findIdx?_cons, hne, ih htail hi]

/-- The `target` of every label of a listing is where the label stands. -/
theorem target_codeAll (fs : List Function) {k l pc n : Nat}
    (h : (Function.codeAll k l fs)[pc]? = some (.label n)) :
    target (Function.codeAll k l fs) n = some pc := by
  have hperm := Function.labels_codeAll fs k l
  exact findIdx?_of_nodup (hperm.nodup_iff.2 List.nodup_range') h rfl

/-- The `entry` of a function is where it begins, if functions have different names. -/
theorem entry_codeAll {fs : List Function} (hnames : (fs.map Function.name).Nodup) {k l pc : Nat}
    {name : String} (h : (Function.codeAll k l fs)[pc]? = some (.functionStart name)) :
    entry (Function.codeAll k l fs) name = some pc := by
  rw [← Function.filterMap_start?_codeAll fs k l] at hnames
  exact findIdx?_of_nodup hnames h rfl

end Machine

end Tricode

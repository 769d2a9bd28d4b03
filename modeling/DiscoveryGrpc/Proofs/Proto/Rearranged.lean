import DiscoveryGrpc.Proofs.Proto.Acceptance

/-!
# Files with their statements in another order

`Grammar.File.Rearranged` puts the statements of a file into any order, and what stands in its
messages, enums, services and rpcs as well, as long as the options of one owner keep theirs. If
nothing in the file has a name that is there twice (`Grammar.File.NamesDistinct`), what the file
stands for is the same afterwards (`Grammar.File.Rearranged.value_eq`): fields are put in order and
all else goes into tables, for which the order of arrival does not matter. So a text of the
statements in another order is the same file (`File.ofText_rearranged`).
-/

namespace DiscoveryGrpc.Proto

/-- Fields of different names are put in the same order however they come. -/
theorem Field.sort_reverse_eq_of_perm {fs gs : List Field} (h : fs.Perm gs)
    (hn : (fs.map (·.name)).Nodup) : sort fs.reverse = sort gs.reverse := by
  have hperm := ((List.reverse_perm fs).trans h).trans (List.reverse_perm gs).symm
  have hgs : Distinct (sort gs.reverse) := by
    refine ⟨sorted_sort _, ((((sort_perm _).trans (List.reverse_perm gs)).trans h.symm).map
      (·.name)).nodup_iff.2 hn⟩
  exact hgs.sort_eq (hperm.trans (sort_perm _).symm)

/-- Fields of new names that are added one by one are put in order. -/
theorem Message.foldl_addField {m : Message} (h : m.fields = []) {fs : List Field}
    (hn : (fs.map (·.name)).Nodup) :
    fs.foldl addField m = { m with fields := Field.sort fs.reverse } := by
  induction fs using List.reverseRecOn with
  | nil =>
    obtain ⟨name, isEnum, description, fields, enums⟩ := m
    obtain rfl : fields = [] := h
    rfl
  | append_singleton fs f ih =>
    rw [List.map_append, List.nodup_append] at hn
    have hnew : ∀ g ∈ Field.sort fs.reverse, g.name ≠ f.name := fun g hg =>
      hn.2.2 _ (List.mem_map_of_mem (List.mem_reverse.1 ((Field.sort_perm _).subset hg))) _
        List.mem_cons_self
    rw [List.foldl_append, ih hn.1, List.foldl_cons, List.foldl_nil, addField, addField?_of_new hnew,
      List.reverse_append]
    rfl

namespace Grammar

/-! ## Lists in another order -/

/-- The elements of a list in another order, each replaced by a related one. -/
def Shuffled {α : Type} (R : α → α → Prop) (xs ys : List α) : Prop :=
  ∃ zs, xs.Perm zs ∧ List.Forall₂ R zs ys

namespace Shuffled

variable {α β : Type} {R : α → α → Prop} {S : β → β → Prop} {xs ys : List α}

theorem refl (h : ∀ x, R x x) (xs : List α) : Shuffled R xs xs :=
  ⟨xs, .refl _, List.forall₂_same.2 fun x _ => h x⟩

theorem filterMap {g : α → Option β} (hg : ∀ x y, R x y → Option.Rel S (g x) (g y))
    (h : Shuffled R xs ys) : Shuffled S (xs.filterMap g) (ys.filterMap g) := by
  obtain ⟨zs, hperm, hrel⟩ := h
  refine ⟨zs.filterMap g, hperm.filterMap g, ?_⟩
  clear hperm
  induction hrel with
  | nil => exact .nil
  | @cons x y zs ys hxy _ ih =>
    have h := hg x y hxy
    rw [List.filterMap_cons, List.filterMap_cons]
    revert h
    cases g x <;> cases g y <;> rintro ⟨⟩
    · exact ih
    · exact .cons ‹_› ih

/-- What does not change from an element to the related one is the same in another order. -/
theorem map_perm {g : α → β} (hg : ∀ x ∈ xs, ∀ y, R x y → g x = g y) (h : Shuffled R xs ys) :
    (xs.map g).Perm (ys.map g) := by
  obtain ⟨zs, hperm, hrel⟩ := h
  have hsame : zs.map g = ys.map g := by
    have hzs : ∀ x ∈ zs, ∀ y, R x y → g x = g y := fun x hx => hg x (hperm.symm.subset hx)
    clear hperm hg
    induction hrel with
    | nil => rfl
    | cons hxy _ ih =>
      rw [List.map_cons, List.map_cons, hzs _ List.mem_cons_self _ hxy,
        ih fun x hx => hzs x (List.mem_cons_of_mem _ hx)]
  exact hsame ▸ hperm.map g

/-- What goes into a table by names of its own goes there in any order. -/
theorem ofList_eq {name : α → String} {value : α → β} (h : Shuffled R xs ys)
    (hn : (xs.map name).Nodup) (hname : ∀ x y, R x y → name x = name y)
    (hvalue : ∀ x ∈ xs, ∀ y, R x y → value x = value y) :
    Table.ofList (xs.map fun x => (name x, value x))
      = Table.ofList (ys.map fun y => (name y, value y)) := by
  refine Table.ofList_eq_of_perm (h.map_perm fun x hx y hxy => ?_) ?_
  · rw [hname x y hxy, hvalue x hx y hxy]
  · rwa [List.map_map]

theorem perm (h : Shuffled Eq xs ys) : xs.Perm ys := by
  obtain ⟨zs, hperm, hrel⟩ := h
  rw [List.forall₂_eq_eq_eq] at hrel
  exact hrel ▸ hperm

theorem exists_of_mem (h : Shuffled R xs ys) {y : α} (hy : y ∈ ys) : ∃ x ∈ xs, R x y := by
  obtain ⟨zs, hperm, hrel⟩ := h
  suffices hzs : ∃ x ∈ zs, R x y from hzs.imp fun _ => And.imp_left (hperm.symm.subset ·)
  clear hperm
  induction hrel with
  | nil => cases hy
  | cons hxy _ ih =>
    rcases List.mem_cons.1 hy with rfl | hy
    · exact ⟨_, List.mem_cons_self, hxy⟩
    · exact (ih hy).imp fun _ => And.imp_left (List.mem_cons_of_mem _)

end Shuffled

/-! ## Statements in another order -/

/-- An enum with its members in another order. -/
structure Enum.Rearranged (e e' : Enum) : Prop where
  name : e.name = e'.name
  block : e.block.Perm e'.block

/-- An item of a message that may be an enum with its members in another order. -/
inductive MessageItem.Rearranged : MessageItem → MessageItem → Prop
  | same (x : MessageItem) : Rearranged x x
  | enum {e e' : Enum} (h : e.Rearranged e') : Rearranged (.enum e) (.enum e')

/-- A message with its fields and enums in another order. -/
structure Message.Rearranged (m m' : Message) : Prop where
  name : m.name = m'.name
  block : Shuffled (Option.Rel MessageItem.Rearranged) m.block m'.block

/-- An rpc with semicolons in other places. -/
structure Rpc.Rearranged (r r' : Rpc) : Prop where
  name : r.name = r'.name
  input : r.input = r'.input
  output : r.output = r'.output
  block : Option.Rel List.Perm r.block? r'.block?
  settings : r.settings = r'.settings

/-- An item of a service that may be an rpc with semicolons in other places. -/
inductive ServiceItem.Rearranged : ServiceItem → ServiceItem → Prop
  | same (x : ServiceItem) : Rearranged x x
  | rpc {r r' : Rpc} (h : r.Rearranged r') : Rearranged (.rpc r) (.rpc r')

/-- A service with its rpcs in another order. -/
structure Service.Rearranged (s s' : Service) : Prop where
  name : s.name = s'.name
  block : Shuffled (Option.Rel ServiceItem.Rearranged) s.block s'.block
  settings : s.settings = s'.settings

/-- A statement that may be a message or a service in another order. -/
inductive Statement.Rearranged : Statement → Statement → Prop
  | same (x : Statement) : Rearranged x x
  | message {m m' : Message} (h : m.Rearranged m') : Rearranged (.message m) (.message m')
  | service {s s' : Service} (h : s.Rearranged s') : Rearranged (.service s) (.service s')

/-- A file with its statements in another order. -/
structure File.Rearranged (f f' : File) : Prop where
  statements : Shuffled Statement.Rearranged f f'
  settings : f.settings = f'.settings

/-- There is one package at most, and nothing is declared twice in one place. -/
structure File.NamesDistinct (f : File) : Prop where
  package : f.packages.length ≤ 1
  messages : (f.messages.map (·.name)).Nodup
  services : (f.services.map (·.name)).Nodup
  enums : ∀ m ∈ f.messages, (m.enums.map (·.name)).Nodup
  members : ∀ m ∈ f.messages, ∀ e ∈ m.enums, (e.members.map (·.name)).Nodup
  rpcs : ∀ s ∈ f.services, (s.rpcs.map (·.name)).Nodup

/-! ## What they stand for -/

theorem rel_self {α : Type} {R : α → α → Prop} (h : ∀ x, R x x) (o : Option α) :
    Option.Rel R o o := by
  cases o with
  | none => exact .none
  | some x => exact .some (h x)

/-- What is defined in a block in another order. -/
theorem Shuffled.items {α : Type} {R : α → α → Prop} {b b' : Block α}
    (h : Shuffled (Option.Rel R) b b') : Shuffled R b.items b'.items :=
  h.filterMap fun _ _ hxy => hxy

namespace Enum.Rearranged

theorem refl (e : Enum) : e.Rearranged e := ⟨rfl, .refl _⟩

variable {e e' : Enum}

theorem value_eq (h : e.Rearranged e') (hn : (e.members.map (·.name)).Nodup) :
    e.value = e'.value := by
  have hperm : (e.members.map Member.value).Perm (e'.members.map Member.value) :=
    ((h.block.filterMap id).filterMap EnumItem.member?).map Member.value
  have hnames : ((e.members.map Member.value).map (·.name)).Nodup := by
    rwa [List.map_map]
  have hnames' := ((hperm.map (·.name)).nodup_iff).1 hnames
  rw [Enum.value, Enum.value, Proto.Message.foldl_addField rfl hnames,
    Proto.Message.foldl_addField rfl hnames',
    Proto.Field.sort_reverse_eq_of_perm hperm hnames, h.name]

end Enum.Rearranged

namespace Message.Rearranged

theorem refl (m : Message) : m.Rearranged m := ⟨rfl, .refl (rel_self .same) _⟩

variable {m m' : Message}

theorem fields_perm (h : m.Rearranged m') : m.fields.Perm m'.fields := by
  refine (h.block.items.filterMap fun x y hxy => ?_).perm
  cases hxy with
  | same => exact rel_self (fun _ => rfl) _
  | enum => exact .none

theorem enums (h : m.Rearranged m') : Shuffled Enum.Rearranged m.enums m'.enums := by
  refine h.block.items.filterMap fun x y hxy => ?_
  cases hxy with
  | same => exact rel_self Enum.Rearranged.refl _
  | enum h => exact .some h

theorem fieldsDistinct (h : m.Rearranged m') (hm : m.FieldsDistinct) : m'.FieldsDistinct :=
  (h.fields_perm.map Field.name).nodup_iff.1 hm

theorem value_eq (h : m.Rearranged m') (hm : m.FieldsDistinct)
    (henums : (m.enums.map (·.name)).Nodup)
    (hmembers : ∀ e ∈ m.enums, (e.members.map (·.name)).Nodup) : m.value = m'.value := by
  have hfields := h.fields_perm.map Field.value
  have hnames : ((m.fields.map Field.value).map (·.name)).Nodup := by
    rwa [List.map_map]
  have htable := h.enums.ofList_eq henums (fun _ _ => Enum.Rearranged.name)
    fun e he e' hee' => hee'.value_eq (hmembers e he)
  rw [Message.value, Message.value, Proto.Field.sort_reverse_eq_of_perm hfields hnames, htable,
    h.name]

end Message.Rearranged

theorem Rpc.Rearranged.refl (r : Rpc) : r.Rearranged r :=
  ⟨rfl, rfl, rfl, rel_self .refl _, rfl⟩

theorem Rpc.Rearranged.value_eq {r r' : Rpc} (h : r.Rearranged r') : r.value = r'.value := by
  rw [Rpc.value, Rpc.value, h.name, h.input, h.output, h.settings]

namespace Service.Rearranged

theorem refl (s : Service) : s.Rearranged s := ⟨rfl, .refl (rel_self .same) _, rfl⟩

variable {s s' : Service}

theorem rpcs (h : s.Rearranged s') : Shuffled Rpc.Rearranged s.rpcs s'.rpcs := by
  refine h.block.items.filterMap fun x y hxy => ?_
  cases hxy with
  | same => exact rel_self Rpc.Rearranged.refl _
  | rpc h => exact .some h

theorem value_eq (h : s.Rearranged s') (hrpcs : (s.rpcs.map (·.name)).Nodup) :
    s.value = s'.value := by
  have htable := h.rpcs.ofList_eq hrpcs (fun _ _ => Rpc.Rearranged.name)
    fun _ _ _ => Rpc.Rearranged.value_eq
  rw [Service.value, Service.value, htable, h.name, h.settings]

end Service.Rearranged

namespace File.Rearranged

variable {f f' : File}

theorem messages (h : f.Rearranged f') : Shuffled Message.Rearranged f.messages f'.messages := by
  refine h.statements.filterMap fun x y hxy => ?_
  cases hxy with
  | same => exact rel_self Message.Rearranged.refl _
  | message h => exact .some h
  | service => exact .none

theorem services (h : f.Rearranged f') : Shuffled Service.Rearranged f.services f'.services := by
  refine h.statements.filterMap fun x y hxy => ?_
  cases hxy with
  | same => exact rel_self Service.Rearranged.refl _
  | message => exact .none
  | service h => exact .some h

theorem packages_perm (h : f.Rearranged f') : f.packages.Perm f'.packages := by
  refine (h.statements.filterMap fun x y hxy => ?_).perm
  cases hxy with
  | same => exact rel_self (fun _ => rfl) _
  | message => exact .none
  | service => exact .none

theorem fieldsDistinct (h : f.Rearranged f') (hf : f.FieldsDistinct) : f'.FieldsDistinct := by
  intro m' hm'
  obtain ⟨m, hm, hmm'⟩ := h.messages.exists_of_mem hm'
  exact hmm'.fieldsDistinct (hf m hm)

/-- The order of statements does not matter for what a file stands for. -/
theorem value_eq (h : f.Rearranged f') (hf : f.FieldsDistinct) (hn : f.NamesDistinct) :
    f.value = f'.value := by
  have hmessages := h.messages.ofList_eq hn.messages (fun _ _ => Message.Rearranged.name)
    fun m hm m' hmm' => hmm'.value_eq (hf m hm) (hn.enums m hm) (hn.members m hm)
  have hservices := h.services.ofList_eq hn.services (fun _ _ => Service.Rearranged.name)
    fun s hs s' hss' => hss'.value_eq (hn.rpcs s hs)
  have hpackages : f.packages = f'.packages := by
    have hperm := h.packages_perm
    rcases Nat.le_one_iff_eq_zero_or_eq_one.1 hn.package with hnone | hone
    · rw [List.eq_nil_of_length_eq_zero hnone] at hperm ⊢
      exact hperm.nil_eq
    · obtain ⟨p, hp⟩ := List.length_eq_one_iff.1 hone
      rw [hp] at hperm ⊢
      exact hperm.singleton_eq
  rw [File.value, File.value, hpackages, h.settings, hmessages, hservices]

end File.Rearranged

/-! ## How they are spelled -/

theorem Shuffled.flatMap_perm {α β : Type} {R : α → α → Prop} {g : α → List β} {xs ys : List α}
    (hg : ∀ x y, R x y → (g x).Perm (g y)) (h : Shuffled R xs ys) :
    (xs.flatMap g).Perm (ys.flatMap g) := by
  obtain ⟨zs, hperm, hrel⟩ := h
  refine (hperm.flatMap_right g).trans ?_
  clear hperm
  induction hrel with
  | nil => exact .refl _
  | cons hxy _ ih => exact (hg _ _ hxy).append ih

namespace Block

variable {α : Type} {tokens : α → List Token} {b b' : Block α}

theorem tokens_perm {R : α → α → Prop} (ht : ∀ x y, R x y → (tokens x).Perm (tokens y))
    (h : Shuffled (Option.Rel R) b b') : (b.tokens tokens).Perm (b'.tokens tokens) := by
  refine ((h.flatMap_perm fun x y hxy => ?_).append_right _).cons _
  cases hxy with
  | none => exact .refl _
  | some hxy => exact ht _ _ hxy

end Block

theorem Enum.Rearranged.tokens_perm {e e' : Enum} (h : e.Rearranged e') :
    e.tokens.Perm e'.tokens := by
  rw [Enum.tokens, Enum.tokens, h.name]
  exact (((h.block.flatMap_right _).append_right _).cons _).cons _

theorem Message.Rearranged.tokens_perm {m m' : Message} (h : m.Rearranged m') :
    m.tokens.Perm m'.tokens := by
  rw [Message.tokens, Message.tokens, h.name]
  refine (Block.tokens_perm (fun x y hxy => ?_) h.block).cons _
  cases hxy with
  | same => exact .refl _
  | enum h => exact h.tokens_perm.cons _

theorem Rpc.Rearranged.tokens_perm {r r' : Rpc} (h : r.Rearranged r') :
    r.tokens.Perm r'.tokens := by
  rw [Rpc.tokens, Rpc.tokens, h.name, h.input, h.output]
  have hbody : ∀ o o', Option.Rel List.Perm o o' →
      (Rpc.bodyTokens o).Perm (Rpc.bodyTokens o') := by
    rintro _ _ (hb | _)
    · exact ((hb.flatMap_right _).append_right _).cons _
    · exact .refl _
  exact (hbody _ _ h.block).append_left _

theorem Service.Rearranged.tokens_perm {s s' : Service} (h : s.Rearranged s') :
    s.tokens.Perm s'.tokens := by
  rw [Service.tokens, Service.tokens, h.name]
  refine (Block.tokens_perm (fun x y hxy => ?_) h.block).cons _
  cases hxy with
  | same => exact .refl _
  | rpc h => exact h.tokens_perm.cons _

/-- A file in another order has the same tokens in another order. -/
theorem File.Rearranged.tokens_perm {f f' : File} (h : f.Rearranged f') :
    f.tokens.Perm f'.tokens := by
  refine h.statements.flatMap_perm fun x y hxy => ?_
  cases hxy with
  | same => exact .refl _
  | message h => exact h.tokens_perm.cons _
  | service h => exact h.tokens_perm.cons _

end Grammar

/-- Tokens of which each can be spelled are those of a text. -/
theorem Spellable.exists_text {ts : List Token} (h : Spellable ts) :
    ∃ text : String, Lexeme.tokens? text.toList = some ts := by
  induction ts with
  | nil => exact ⟨"", rfl⟩
  | cons t ts ih =>
    obtain ⟨ht, hts⟩ := Spellable.cons.1 h
    obtain ⟨text, htext⟩ := ih hts
    refine ⟨String.ofList (t.write.toList ++ ([' '] ++ text.toList)), ?_⟩
    have hspace := Lexeme.tokens?_space [' '] (List.forall_mem_singleton.2 rfl) text.toList
    rw [String.toList_ofList, Lexeme.tokens?_write ht (fun _ => by simp [Lexeme.Apart]; decide),
      hspace, htext]
    rfl

/-- The order of declarations does not matter: if a text spells a file, in which there is one
package at most and nothing is declared twice in one place, then its statements in another order are
spelled by some text, and every such text spells the same file. -/
theorem File.ofText_rearranged {text : String} {f : File} (h : ofText text = .ok f) :
    (∃ tree : Grammar.File, tree.SpelledBy text) ∧
    ∀ tree tree' : Grammar.File, tree.SpelledBy text → tree.NamesDistinct →
      tree.Rearranged tree' →
      (∃ text', tree'.SpelledBy text') ∧ ∀ text', tree'.SpelledBy text' → ofText text' = .ok f := by
  obtain ⟨located, hlocated, -⟩ := Except.bind_eq_ok_iff.1 h
  constructor
  · obtain ⟨tree, htokens, -⟩ := derives_of_ofText hlocated (by simp [h])
    exact ⟨tree, located, hlocated, htokens⟩
  intro tree tree' htree hnames hrearranged
  have hdistinct : tree.FieldsDistinct := by
    by_contra hsame
    obtain ⟨message, line, herror⟩ := exists_ofText_duplicate htree hsame
    cases h.symm.trans herror
  constructor
  · obtain ⟨located', hlocated', htokens⟩ := htree
    have hspellable : Spellable tree.tokens := htokens ▸ Lexeme.spellable_of_tokens hlocated'
    have hspellable' : Spellable tree'.tokens := fun t ht =>
      hspellable t (hrearranged.tokens_perm.symm.subset ht)
    obtain ⟨text', htext'⟩ := hspellable'.exists_text
    obtain ⟨located', hlocated', htokens'⟩ := Lexeme.tokens_of_tokens? htext'
    exact ⟨text', located', hlocated', htokens'.symm⟩
  · intro text' htree'
    rw [ofText_derived htree' (hrearranged.fieldsDistinct hdistinct),
      ← hrearranged.value_eq hdistinct hnames, ← ofText_derived htree hdistinct, h]

/-! ## A file in two orders -/

section

open Grammar

/-- A state of a lake. -/
def stateItem (name : String) (number : Int) (h : name ∉ ["option", "reserved"]) :
    Option EnumItem :=
  some (.member ⟨name, h, number, []⟩)

/-- A lake without a semicolon behind its fields. -/
def lakeItems (states : Block EnumItem) : Block MessageItem :=
  [some (.enum ⟨"State", states⟩),
    some (.field ⟨.plain "p.Bay" (by decide), "bay", 1, []⟩),
    some (.field ⟨.plain "string" string_notMem, "name", 2, []⟩)]

/-- What the service of lakes has. -/
def lakesItems : Block ServiceItem :=
  [some (.rpc ⟨"Get", "Bay", "Lake", by decide, by decide, none⟩), none,
    some (.setting ⟨"b", false, .scalar (.int 1)⟩)]

/-- A file with the package at its end. -/
def packageLast : Grammar.File :=
  [.message ⟨"Lake", lakeItems [stateItem "SALT" 1 (by decide), stateItem "DRY" 0 (by decide)]⟩,
    .setting ⟨"a", false, .scalar (.word "b")⟩,
    .service ⟨"Lakes", lakesItems⟩,
    .message ⟨"Bay", []⟩,
    .package "p"]

/-- The same file with the package at its beginning and all else in another order as well. -/
def packageFirst : Grammar.File :=
  [.package "p",
    .message ⟨"Bay", []⟩,
    .service ⟨"Lakes", lakesItems.reverse⟩,
    .setting ⟨"a", false, .scalar (.word "b")⟩,
    .message ⟨"Lake",
      (lakeItems [stateItem "DRY" 0 (by decide), stateItem "SALT" 1 (by decide)]).reverse⟩]

def packageLastText : String :=
  "message Lake \x7b enum State \x7b SALT = 1; DRY = 0; \x7d p.Bay bay = 1; string name = 2; \x7d
option a = b;
service Lakes \x7b rpc Get(Bay) returns (Lake);; option b = 1; \x7d
message Bay \x7b\x7d
package p;"

def packageFirstText : String :=
  "package p;
message Bay \x7b\x7d
service Lakes \x7b option b = 1;; rpc Get(Bay) returns (Lake); \x7d
option a = b;
message Lake \x7b string name = 2; p.Bay bay = 1; enum State \x7b DRY = 0; SALT = 1; \x7d \x7d"

theorem rearranged_packageFirst : packageLast.Rearranged packageFirst where
  statements := by
    have hlakes : Service.Rearranged ⟨"Lakes", lakesItems⟩ ⟨"Lakes", lakesItems.reverse⟩ :=
      ⟨rfl, ⟨lakesItems.reverse, (List.reverse_perm _).symm,
        List.forall₂_same.2 fun x _ => rel_self .same x⟩, rfl⟩
    have hstate : Enum.Rearranged
        ⟨"State", [stateItem "SALT" 1 (by decide), stateItem "DRY" 0 (by decide)]⟩
        ⟨"State", [stateItem "DRY" 0 (by decide), stateItem "SALT" 1 (by decide)]⟩ :=
      ⟨rfl, .swap ..⟩
    exact ⟨packageLast.reverse, (List.reverse_perm _).symm, .cons (.same _) <| .cons (.same _) <|
      .cons (.service hlakes) <| .cons (.same _) <|
      .cons (.message ⟨rfl, ⟨_, (List.reverse_perm _).symm, .cons (.some (.same _)) <|
        .cons (.some (.same _)) <| .cons (.some (.enum hstate)) .nil⟩⟩) .nil⟩
  settings := rfl

set_option maxRecDepth 2000 in
/-- The two texts spell one file, in which the package qualifies a type that stands before it. -/
theorem File.ofText_rearranged_packageFirst : ∃ f, ofText packageLastText = .ok f ∧
    f.messages.names = ["Bay", "Lake"] ∧
    (packageLast.SpelledBy packageLastText ∧ packageLast.NamesDistinct ∧
      packageLast.Rearranged packageFirst ∧ packageFirst.SpelledBy packageFirstText) ∧
    ofText packageFirstText = .ok f := by
  obtain ⟨f, hf, hmessages⟩ : ∃ f, ofText packageLastText = .ok f ∧
      decide (f.messages.names = ["Bay", "Lake"]) = true := by
    rw [ofText, Lexeme.tokens_of_chars packageLastText rfl]
    exact exists_eq_ok (by decide +kernel)
  have hspelled : ∃ located, Lexeme.tokens packageLastText = .ok located ∧
      decide (packageLast.tokens = located.map (·.1)) = true := by
    rw [Lexeme.tokens_of_chars packageLastText rfl]
    exact exists_eq_ok (by decide +kernel)
  have hspelled' : ∃ located, Lexeme.tokens packageFirstText = .ok located ∧
      decide (packageFirst.tokens = located.map (·.1)) = true := by
    rw [Lexeme.tokens_of_chars packageFirstText rfl]
    exact exists_eq_ok (by decide +kernel)
  have hlast : packageLast.SpelledBy packageLastText :=
    hspelled.imp fun _ => And.imp_right of_decide_eq_true
  have hfirst : packageFirst.SpelledBy packageFirstText :=
    hspelled'.imp fun _ => And.imp_right of_decide_eq_true
  have hnames : packageLast.NamesDistinct := by
    constructor <;> decide
  exact ⟨f, hf, of_decide_eq_true hmessages, ⟨hlast, hnames, rearranged_packageFirst, hfirst⟩,
    ((ofText_rearranged hf).2 _ _ hlast hnames rearranged_packageFirst).2 _ hfirst⟩

end

end DiscoveryGrpc.Proto

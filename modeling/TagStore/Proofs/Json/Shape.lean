import TagStore.Proofs.Json.Text
import TagStore.Proofs.Text.Symbol

/-!
# Written arrays and objects are read back

A reader takes a written value if it takes it off the front of any text, after any gaps.  Readers of
arrays, of dictionaries and of records take what is put together from values that the readers inside
of them take, with gaps after brackets, commas and colons or without.
-/

namespace TagStore
namespace Json
namespace Reader

variable {α β σ : Type}

theorem bind_eq {first : Reader α} {text rest : List Symbol} {value : α}
    (found : first text = .ok (value, rest)) (next : α → Reader β) :
    (first >>= next) text = next value rest := by
  simp [bind, StateT.bind, found, Except.bind]

theorem map_eq {reader : Reader α} {text rest : List Symbol} {value : α}
    (found : reader text = .ok (value, rest)) (change : α → β) :
    (change <$> reader) text = .ok (change value, rest) := by
  simp [Functor.map, StateT.map, found, Except.bind, pure, Except.pure, bind]

/-- Nothing but gaps. -/
def IsSpace (space : List Char) : Prop := ∀ c ∈ space, isGap (.char c)

theorem isSpace_nil : IsSpace [] := fun _ none => nomatch none

theorem isSpace_blank : IsSpace [' '] := by
  intro c member
  rw [List.mem_singleton.mp member]
  decide

/-- A character with which a value begins, which is neither a gap nor a closing bracket. -/
def Opens (c : Char) : Prop := isGap (.char c) = false ∧ c ≠ ']' ∧ c ≠ '\x7d'

instance (c : Char) : Decidable (Opens c) := inferInstanceAs (Decidable (_ ∧ _))

/-- A reader takes a written value, whatever gaps are before it and whatever comes after it. -/
structure Takes (reader : Reader α) (written : List Char) (value : α) : Prop where
  opens : ∃ c rest, written = c :: rest ∧ Opens c
  takes : ∀ {space : List Char} (rest : List Symbol), IsSpace space →
    reader (space.map .char ++ (written.map .char ++ rest)) = .ok (value, rest)

/-! ## Single symbols -/

theorem peek_space {space : List Char} (isSpace : IsSpace space) {c : Char}
    (visible : isGap (.char c) = false) (rest : List Symbol) :
    peek (space.map .char ++ .char c :: rest) = .ok (.char c, .char c :: rest) := by
  have passed : (space.map Symbol.char ++ .char c :: rest).dropWhile isGap = .char c :: rest := by
    induction space with
    | nil => simp [visible]
    | cons head tail induction =>
        obtain ⟨first, later⟩ := List.forall_mem_cons.mp isSpace
        simp only [List.map_cons, List.cons_append, List.dropWhile_cons, first, if_true]
        exact induction later
  simp only [peek, passed]

theorem expect_space {space : List Char} (isSpace : IsSpace space) {c : Char}
    (visible : isGap (.char c) = false) (rest : List Symbol) :
    expect c (space.map .char ++ .char c :: rest) = .ok ((), rest) := by
  rw [expect, bind_eq (peek_space isSpace visible rest), if_pos rfl]
  rfl

theorem Takes.peek {reader : Reader α} {written : List Char} {value : α}
    (taken : Takes reader written value) {space : List Char} (isSpace : IsSpace space)
    (rest : List Symbol) :
    ∃ c, Opens c ∧ peek (space.map .char ++ (written.map .char ++ rest)) =
      .ok (.char c, written.map .char ++ rest) := by
  obtain ⟨c, tail, rfl, opens⟩ := taken.opens
  exact ⟨c, opens, peek_space isSpace opens.1 _⟩

theorem takes_of_peek {next : Symbol → Reader α} {c : Char} {later : List Char} {value : α}
    (opens : Opens c)
    (taken : ∀ rest, next (.char c) (.char c :: (later.map .char ++ rest)) = .ok (value, rest)) :
    Takes (peek >>= next) (c :: later) value where
  opens := ⟨c, later, rfl, opens⟩
  takes := by
    intro space rest isSpace
    rw [List.map_cons, List.cons_append, bind_eq (peek_space isSpace opens.1 _)]
    exact taken rest

/-! ## Texts -/

theorem contents_quoted (text : String) (rest : List Symbol) :
    (advance >>= fun _ => contents true) (.char '"' ::
      ((text.toList.flatMap escape ++ ['"']).map Symbol.char ++ rest)) = .ok (text, rest) := by
  rw [List.map_append, List.append_assoc]
  exact contents_escape text rest

theorem takes_name (text : String) : Takes (name true) (quoted text).toList text := by
  rw [toList_quoted]
  apply takes_of_peek (by decide)
  intro rest
  rw [if_pos rfl]
  exact contents_quoted text rest

theorem takes_text (text : String) : Takes Reader.text (quoted text).toList text := by
  rw [toList_quoted]
  apply takes_of_peek (by decide)
  intro rest
  rw [if_pos rfl]
  exact contents_quoted text rest

theorem takes_leaf (text : String) :
    Takes (leaf true) (quoted text).toList (Json.text text) := by
  rw [toList_quoted]
  apply takes_of_peek (by decide)
  intro rest
  exact map_eq (contents_quoted text rest) Json.text

/-! ## Items between brackets -/

/-- Items are taken one after the other, each with what came of those before. -/
inductive TakesAll (item : σ → Reader σ) : List (List Char) → σ → σ → Prop
  /-- No item. -/
  | nil {state : σ} : TakesAll item [] state state
  /-- One item and others. -/
  | cons {written : List Char} {others : List (List Char)} {before between after : σ} :
      Takes (item before) written between → TakesAll item others between after →
      TakesAll item (written :: others) before after

/-- Items behind commas. -/
def furtherItems (inner : List Char) (items : List (List Char)) : List Char :=
  items.flatMap fun item => ',' :: (inner ++ item)

/-- Items between brackets, with gaps before each of them and before the closing bracket. -/
def bracketed (opening closing : Char) (inner outer : List Char) : List (List Char) → List Char
  | [] => [opening, closing]
  | item :: rest =>
      opening :: (inner ++ (item ++ (furtherItems inner rest ++ (outer ++ [closing]))))

/-- A closing bracket. -/
def IsClosing (c : Char) : Prop := c = ']' ∨ c = '\x7d'

theorem IsClosing.visible {c : Char} (closes : IsClosing c) : isGap (.char c) = false := by
  rcases closes with rfl | rfl <;> decide

theorem IsClosing.ne_comma {c : Char} (closes : IsClosing c) : ',' ≠ c := by
  rcases closes with rfl | rfl <;> decide

theorem Opens.ne_closing {c closing : Char} (opens : Opens c) (closes : IsClosing closing) :
    c ≠ closing := by
  rcases closes with rfl | rfl
  · exact opens.2.1
  · exact opens.2.2

variable {item : σ → Reader σ} {closing : Char} {inner outer : List Char}

theorem itemsUntil_closing (closes : IsClosing closing) (fuel : Nat) (first : Bool) (state : σ)
    {space : List Char} (isSpace : IsSpace space) (rest : List Symbol) :
    itemsUntil closing item (fuel + 1) first state (space.map .char ++ .char closing :: rest) =
      .ok (state, rest) := by
  rw [itemsUntil, bind_eq (peek_space isSpace closes.visible rest), if_pos rfl]
  rfl

theorem itemsUntil_first (closes : IsClosing closing) (fuel : Nat) {written : List Char}
    {before between : σ} (first : Takes (item before) written between) {space : List Char}
    (isSpace : IsSpace space) (rest : List Symbol) :
    itemsUntil closing item (fuel + 1) true before
        (space.map .char ++ (written.map .char ++ rest)) =
      itemsUntil closing item fuel false between rest := by
  obtain ⟨c, opens, seen⟩ := first.peek isSpace rest
  have different : Symbol.char c ≠ .char closing := by simpa using opens.ne_closing closes
  rw [itemsUntil, bind_eq seen, if_neg different]
  exact bind_eq (first.takes rest isSpace_nil) _

theorem itemsUntil_next (closes : IsClosing closing) (fuel : Nat) {written : List Char}
    {before between : σ} (next : Takes (item before) written between) {space : List Char}
    (isSpace : IsSpace space) (rest : List Symbol) :
    itemsUntil closing item (fuel + 1) false before
        (.char ',' :: (space.map .char ++ (written.map .char ++ rest))) =
      itemsUntil closing item fuel false between rest := by
  have different : Symbol.char ',' ≠ .char closing := by simpa using closes.ne_comma
  have seen := peek_space isSpace_nil (c := ',') (by decide)
  have taken := expect_space isSpace_nil (c := ',') (by decide)
  rw [List.map_nil] at seen taken
  simp only [List.nil_append] at seen taken
  rw [itemsUntil, bind_eq (seen _), if_neg different]
  simp only [Bool.not_false, if_true]
  rw [bind_eq (taken _)]
  exact bind_eq (next.takes rest isSpace) _

theorem itemsUntil_further (closes : IsClosing closing) (innerSpace : IsSpace inner)
    (outerSpace : IsSpace outer) {written : List (List Char)} {before after : σ}
    (taken : TakesAll item written before after) {fuel : Nat} (enough : written.length < fuel)
    (rest : List Symbol) :
    itemsUntil closing item fuel false before ((furtherItems inner written).map .char ++
        (outer.map .char ++ .char closing :: rest)) = .ok (after, rest) := by
  obtain ⟨fuel, rfl⟩ : ∃ smaller, fuel = smaller + 1 := ⟨fuel - 1, by omega⟩
  induction taken generalizing fuel with
  | nil => exact itemsUntil_closing closes fuel false _ outerSpace rest
  | @cons written others before between after next _ induction =>
      simp only [List.length_cons] at enough
      obtain ⟨fuel, rfl⟩ : ∃ smaller, fuel = smaller + 1 := ⟨fuel - 1, by omega⟩
      have later := induction fuel (by omega)
      simp only [furtherItems, List.flatMap_cons, List.cons_append, List.append_assoc,
        List.map_cons, List.map_append]
      rw [itemsUntil_next closes _ next innerSpace]
      exact later

theorem length_le_furtherItems (inner : List Char) (written : List (List Char)) :
    written.length ≤ (furtherItems inner written).length := by
  induction written with
  | nil => simp
  | cons item rest induction =>
      simp only [furtherItems, List.flatMap_cons, List.length_append, List.length_cons]
        at induction ⊢
      omega

theorem enclosed_cons (before : σ) (opening : Symbol) (text : List Symbol) :
    enclosed closing item before (opening :: text) =
      itemsUntil closing item (text.length + 1) true before text := rfl

/-- Items between brackets are taken one after the other. -/
theorem takes_enclosed (closes : IsClosing closing) (innerSpace : IsSpace inner)
    (outerSpace : IsSpace outer) {written : List (List Char)} {before after : σ}
    (taken : TakesAll item written before after) (opening : Char) (rest : List Symbol) :
    enclosed closing item before
        ((bracketed opening closing inner outer written).map .char ++ rest) =
      .ok (after, rest) := by
  cases taken with
  | nil => exact itemsUntil_closing closes _ true _ isSpace_nil rest
  | @cons written others _ between _ first later =>
      have enough := length_le_furtherItems inner others
      simp only [bracketed, List.map_cons, List.map_append, List.append_assoc, List.cons_append]
      rw [enclosed_cons, itemsUntil_first closes _ first innerSpace]
      apply itemsUntil_further closes innerSpace outerSpace later
      simp only [List.length_append, List.length_cons, List.length_map]
      omega

theorem bracketed_eq (opening closing : Char) (inner outer : List Char)
    (items : List (List Char)) :
    ∃ rest, bracketed opening closing inner outer items = opening :: rest := by
  cases items with
  | nil => exact ⟨_, rfl⟩
  | cons item rest => exact ⟨_, rfl⟩

/-! ## Arrays, dictionaries and records -/

theorem Takes.bind {reader : Reader α} {written : List Char} {value : α}
    (taken : Takes reader written value) {next : α → Reader β} {result : β}
    (ends : ∀ rest, next value rest = .ok (result, rest)) :
    Takes (reader >>= next) written result where
  opens := taken.opens
  takes := by
    intro space rest isSpace
    rw [bind_eq (taken.takes rest isSpace), ends]

theorem Takes.map {reader : Reader α} {written : List Char} {value : α}
    (taken : Takes reader written value) (change : α → β) :
    Takes (change <$> reader) written (change value) where
  opens := taken.opens
  takes := fun rest isSpace => map_eq (taken.takes rest isSpace) change

theorem takesAll_items {item : Reader α} {values : List α} {write : α → List Char}
    (each : ∀ value ∈ values, Takes item (write value) value) (before : List α) :
    TakesAll (fun taken => do pure ((← item) :: taken)) (values.map write) before
      (values.reverse ++ before) := by
  induction values generalizing before with
  | nil => exact .nil
  | cons value rest induction =>
      obtain ⟨first, later⟩ := List.forall_mem_cons.mp each
      have taken := induction later (value :: before)
      rw [List.reverse_cons, List.append_assoc, List.singleton_append]
      exact .cons (first.bind fun _ => rfl) taken

/-- A written array is taken as the list of its items. -/
theorem takes_list {item : Reader α} {values : List α} (write : α → List Char)
    (innerSpace : IsSpace inner) (outerSpace : IsSpace outer)
    (each : ∀ value ∈ values, Takes item (write value) value) :
    Takes (list item) (bracketed '[' ']' inner outer (values.map write)) values := by
  obtain ⟨later, split⟩ := bracketed_eq '[' ']' inner outer (values.map write)
  have taken := takes_enclosed (.inl rfl) innerSpace outerSpace (takesAll_items each []) '['
  rw [split] at taken ⊢
  apply takes_of_peek (by decide)
  intro rest
  rw [if_pos rfl]
  have reversed := map_eq (taken rest) List.reverse
  rw [List.append_nil, List.reverse_reverse] at reversed
  exact reversed

/-- A member of an object. -/
def memberText (space : List Char) (name : String) (value : List Char) : List Char :=
  (quoted name).toList ++ ':' :: (space ++ value)

theorem takes_member {next : String → Reader α} {space : List Char} (colonSpace : IsSpace space)
    {key : String} {written : List Char} {result : α} {reader : Reader α}
    (taken : Takes reader written result)
    (continues : ∀ text, next key (.char ':' :: text) = reader text) :
    Takes (name true >>= next) (memberText space key written) result where
  opens := ⟨'"', _, by rw [memberText, toList_quoted]; rfl, by decide⟩
  takes := by
    intro gap rest isSpace
    rw [memberText, List.map_append, List.append_assoc,
      bind_eq ((takes_name key).takes _ isSpace), List.map_cons, List.cons_append, continues,
      List.map_append, List.append_assoc]
    exact taken.takes rest colonSpace

theorem takesAll_members {item : Reader α} {members : List (String × α)}
    {write : α → List Char} {space : List Char} (colonSpace : IsSpace space)
    (each : ∀ member ∈ members, Takes item (write member.2) member.2)
    (before : List (String × α)) :
    TakesAll (addMember true item)
      (members.map fun member => memberText space member.1 (write member.2)) before
      (members.reverse ++ before) := by
  induction members generalizing before with
  | nil => exact .nil
  | cons member rest induction =>
      obtain ⟨first, later⟩ := List.forall_mem_cons.mp each
      have taken := induction later (member :: before)
      have named := first.map fun value => (member.1, value) :: before
      rw [List.reverse_cons, List.append_assoc, List.singleton_append]
      exact .cons (takes_member colonSpace named fun _ => rfl) taken

theorem takes_members {item : Reader α} {members : List (String × α)} (write : α → List Char)
    {space : List Char} (innerSpace : IsSpace inner) (outerSpace : IsSpace outer)
    (colonSpace : IsSpace space)
    (each : ∀ member ∈ members, Takes item (write member.2) member.2) (rest : List Symbol) :
    Reader.members true item ((bracketed '\x7b' '\x7d' inner outer
        (members.map fun member => memberText space member.1 (write member.2))).map .char ++ rest) =
      .ok (members, rest) := by
  have taken := map_eq (takes_enclosed (.inr rfl) innerSpace outerSpace
    (takesAll_members colonSpace each []) '\x7b' rest) List.reverse
  rw [List.append_nil, List.reverse_reverse] at taken
  exact taken

/-- A written object is taken as the list of its members. -/
theorem takes_dictionary {item : Reader α} {members : List (String × α)} (write : α → List Char)
    {space : List Char} (innerSpace : IsSpace inner) (outerSpace : IsSpace outer)
    (colonSpace : IsSpace space)
    (each : ∀ member ∈ members, Takes item (write member.2) member.2) :
    Takes (dictionary item) (bracketed '\x7b' '\x7d' inner outer
      (members.map fun member => memberText space member.1 (write member.2))) members := by
  have taken := takes_members write innerSpace outerSpace colonSpace each
  obtain ⟨later, split⟩ := bracketed_eq '\x7b' '\x7d' inner outer
    (members.map fun member => memberText space member.1 (write member.2))
  rw [split] at taken ⊢
  apply takes_of_peek (by decide)
  intro rest
  rw [if_pos rfl]
  exact taken rest

/-- A written object is taken as a value. -/
theorem takes_object {depth : Nat} {members : List (String × Json)} (write : Json → List Char)
    {space : List Char} (innerSpace : IsSpace inner) (outerSpace : IsSpace outer)
    (colonSpace : IsSpace space)
    (each : ∀ member ∈ members, Takes (value true depth) (write member.2) member.2) :
    Takes (value true (depth + 1)) (bracketed '\x7b' '\x7d' inner outer
      (members.map fun member => memberText space member.1 (write member.2)))
      (.object members) := by
  have taken := takes_members write innerSpace outerSpace colonSpace each
  obtain ⟨later, split⟩ := bracketed_eq '\x7b' '\x7d' inner outer
    (members.map fun member => memberText space member.1 (write member.2))
  rw [split] at taken ⊢
  apply takes_of_peek (by decide)
  exact fun rest => map_eq (taken rest) Json.object

theorem takes_text_value (depth : Nat) (text : String) :
    Takes (value true depth) (quoted text).toList (.text text) := by
  have taken (rest : List Symbol) := (takes_leaf text).takes rest isSpace_nil
  rw [toList_quoted] at taken ⊢
  cases depth with
  | zero =>
      apply takes_of_peek (by decide)
      exact taken
  | succ depth =>
      apply takes_of_peek (by decide)
      exact taken

theorem takes_field {fields : List (Field σ)} {key : String} {field : Field σ}
    (found : fields.find? (·.name = key) = some field) {before after : σ}
    (unseen : field.seen before = false) {space written : List Char} (colonSpace : IsSpace space)
    (taken : Takes (field.read before) written after) :
    Takes (Reader.field fields before) (memberText space key written) after := by
  apply takes_member colonSpace taken
  intro text
  simp only [found, unseen]
  rfl

/-- A written object is taken as a record, field by field. -/
theorem takes_record {fields : List (Field σ)} {written : List (List Char)} {start final : σ}
    {finish : σ → Option α} {result : α} (innerSpace : IsSpace inner) (outerSpace : IsSpace outer)
    (taken : TakesAll (Reader.field fields) written start final)
    (complete : finish final = some result) :
    Takes (record fields start finish) (bracketed '\x7b' '\x7d' inner outer written) result := by
  have enclosed := takes_enclosed (.inr rfl) innerSpace outerSpace taken '\x7b'
  obtain ⟨later, split⟩ := bracketed_eq '\x7b' '\x7d' inner outer written
  rw [split] at enclosed ⊢
  apply takes_of_peek (by decide)
  intro rest
  apply (bind_eq (enclosed rest) _).trans
  simp only [complete]
  rfl

/-! ## Documents -/

/-- A written value makes up a whole document. -/
theorem Takes.document {reader : Reader α} {text : String} {value : α}
    (taken : Takes reader text.toList value) : document reader text.toUTF8 = .ok value := by
  have whole := taken.takes [] isSpace_nil
  simp only [List.map_nil, List.nil_append, List.append_nil] at whole
  simp only [Reader.document, Symbol.ofBytes_toUTF8, whole]
  rfl

end Reader
end Json
end TagStore

import Mathlib.Data.List.Basic

/-! # Frames in fixed-size blocks

    A stream is cut into blocks of a fixed size.  Frames never cross a block
    boundary; a tail of a block too short for a header is padding.  A reader that
    rejects a frame skips to the next block, so one bad frame costs at most the
    rest of its block.

    `Scan` says what such a reader sees of a byte string, `Laid` what a writer
    that respects the blocks produces.  A position is given by its **room**: the
    number of bytes left in its block. -/

namespace Blocked

variable {β α ε : Type}

/-- What stands at the start of the unread part of a block. -/
inductive Verdict (α ε : Type) where
  | frame (a : α) (size : Nat)
  | beyond
  | reject (e : ε)

/-- A frame format: the size of a block and of a header, how the unread part of
    a block begins (asked when a header is there), and how a frame is reported
    that claims more bytes than its full block has. -/
structure Format (β α ε : Type) where
  block : Nat
  header : Nat
  header_pos : 0 < header
  header_lt : header < block
  check : List β → Verdict α ε
  overrun : List β → ε

/-- What a reader meets: a frame, or a rejection that skips the rest of a block. -/
inductive Event (α ε : Type) where
  | frame (a : α)
  | reject (e : ε)
  deriving DecidableEq

/-- The unread part of the block a reader is in. -/
def chunk (room : Nat) (bytes : List β) : List β := bytes.take room

/-- `Scan F room bytes events`: from a position with `room` bytes left in its
    block, a reader of `bytes` meets `events` and then the end.  The last block
    is the one that `bytes` does not fill. -/
inductive Scan (F : Format β α ε) : Nat → List β → List (Event α ε) → Prop
  | ends {room : Nat} {bytes : List β} : bytes.length < room → bytes.length < F.header →
      Scan F room bytes []
  | torn {room : Nat} {bytes : List β} : bytes.length < room → F.header ≤ bytes.length →
      F.check bytes = .beyond → Scan F room bytes []
  | pad {room : Nat} {bytes : List β} {es : List (Event α ε)} : room ≤ bytes.length →
      room < F.header → Scan F F.block (bytes.drop room) es → Scan F room bytes es
  | overrun {room : Nat} {bytes : List β} {es : List (Event α ε)} : room ≤ bytes.length →
      F.header ≤ room → F.check (chunk room bytes) = .beyond →
      Scan F F.block (bytes.drop room) es →
      Scan F room bytes (.reject (F.overrun (chunk room bytes)) :: es)
  | reject {room : Nat} {bytes : List β} {e : ε} {es : List (Event α ε)} :
      F.header ≤ (chunk room bytes).length → F.check (chunk room bytes) = .reject e →
      Scan F F.block (bytes.drop room) es → Scan F room bytes (.reject e :: es)
  | frame {room : Nat} {bytes : List β} {a : α} {size : Nat} {es : List (Event α ε)} :
      F.header ≤ (chunk room bytes).length → F.check (chunk room bytes) = .frame a size →
      Scan F (room - size) (bytes.drop size) es → Scan F room bytes (.frame a :: es)

variable (F : Format β α ε)

/-- `e` is the encoding of frame `a`: read back whatever follows, and recognised
    as cut off when at least its header is there. -/
structure Framed (e : List β) (a : α) : Prop where
  header_le : F.header ≤ e.length
  read : ∀ rest, F.check (e ++ rest) = .frame a e.length
  cut : ∀ k, F.header ≤ k → k < e.length → F.check (e.take k) = .beyond

/-- `Laid F room bytes frames room'`: `bytes` are the encodings of `frames`, laid
    from a position with `room` bytes left in its block to one with `room'`; a
    tail too short for a header is padded before the frame that does not fit. -/
inductive Laid (F : Format β α ε) : Nat → List β → List α → Nat → Prop
  | nil (room : Nat) : Laid F room [] [] room
  | frame {room room' : Nat} {e bytes : List β} {a : α} {as : List α} :
      Framed F e a → e.length ≤ room → Laid F (room - e.length) bytes as room' →
      Laid F room (e ++ bytes) (a :: as) room'
  | pad {room room' : Nat} {p e bytes : List β} {a : α} {as : List α} :
      p.length = room → room < F.header → Framed F e a → e.length ≤ F.block →
      Laid F (F.block - e.length) bytes as room' →
      Laid F room (p ++ (e ++ bytes)) (a :: as) room'

variable {F}

/-! ## Reading -/

/-- Nothing more to read. -/
theorem scan_nil (room : Nat) : Scan F room [] [] := by
  have hpos := F.header_pos
  have hlt := F.header_lt
  have hblock : Scan F F.block [] [] := by
    refine Scan.ends ?_ ?_
    · show 0 < F.block
      omega
    · exact hpos
  by_cases h : room = 0
  · subst h
    refine Scan.pad (Nat.le_refl 0) hpos ?_
    exact hblock
  · refine Scan.ends ?_ hpos
    show 0 < room
    omega

variable {es : List (Event α ε)}

variable {bytes : List β}

/-- At the end of a block reading goes on in the next one. -/
theorem scan_zero (h : Scan F F.block bytes es) : Scan F 0 bytes es := by
  refine Scan.pad (Nat.zero_le _) F.header_pos ?_
  exact h

variable {room r : Nat} {as : List α} {b pre : List β}

/-- Padding is skipped. -/
theorem scan_pad {p rest : List β} (hp : p.length = room) (hroom : room < F.header)
    (h : Scan F F.block rest es) : Scan F room (p ++ rest) es := by
  refine Scan.pad ?_ hroom ?_
  · rw [List.length_append]
    omega
  · rw [← hp, List.drop_left]
    exact h

/-- An encoded frame within its block is read, whatever follows. -/
theorem Framed.scan {e : List β} {a : α} {rest : List β} (he : Framed F e a)
    (hroom : e.length ≤ room) (h : Scan F (room - e.length) rest es) :
    Scan F room (e ++ rest) (.frame a :: es) := by
  have hchunk : chunk room (e ++ rest) = e ++ rest.take (room - e.length) := by
    rw [chunk, List.take_append, List.take_of_length_le hroom]
  have hread : F.check (chunk room (e ++ rest)) = .frame a e.length := by
    rw [hchunk]
    exact he.read _
  refine Scan.frame ?_ hread ?_
  · have := he.header_le
    rw [hchunk, List.length_append]
    omega
  · rw [List.drop_left]
    exact h

/-- A frame cut off by the end of the stream is ignored. -/
theorem Framed.scan_take {n : Nat} {e : List β} {a : α} (he : Framed F e a)
    (hroom : e.length ≤ room) (hn : n < e.length) : Scan F room (e.take n) [] := by
  have hlen : (e.take n).length = n := by
    rw [List.length_take]
    omega
  by_cases h : n < F.header
  · exact Scan.ends (by omega) (by omega)
  · exact Scan.torn (by omega) (by omega) (he.cut n (by omega) hn)

/-! ## What a writer lays down -/

/-- Laid stretches compose. -/
theorem Laid.append {r₁ : Nat} {b₁ : List β} {as₁ : List α} (h₁ : Laid F room b₁ as₁ r₁) :
    ∀ {r₂ : Nat} {b₂ : List β} {as₂ : List α}, Laid F r₁ b₂ as₂ r₂ →
      Laid F room (b₁ ++ b₂) (as₁ ++ as₂) r₂ := by
  induction h₁ with
  | nil room =>
    intro r₂ b₂ as₂ h₂
    exact h₂
  | frame he hroom _ ih =>
    intro r₂ b₂ as₂ h₂
    rw [List.append_assoc]
    exact Laid.frame he hroom (ih h₂)
  | pad hp hroom he hblock _ ih =>
    intro r₂ b₂ as₂ h₂
    rw [List.append_assoc, List.append_assoc]
    exact Laid.pad hp hroom he hblock (ih h₂)

/-- **What was laid is read back**, and reading goes on where it ended. -/
theorem Laid.scan (h : Laid F room b as r) :
    ∀ {rest : List β} {es : List (Event α ε)}, Scan F r rest es →
      Scan F room (b ++ rest) (as.map .frame ++ es) := by
  induction h with
  | nil room =>
    intro rest es hrest
    exact hrest
  | frame he hroom _ ih =>
    intro rest es hrest
    rw [List.append_assoc]
    exact he.scan hroom (ih hrest)
  | @pad room room' p e bytes a as hp hroom he hblock _ ih =>
    intro rest es hrest
    have hnext : Scan F F.block (e ++ (bytes ++ rest)) (.frame a :: (as.map .frame ++ es)) :=
      he.scan hblock (ih hrest)
    rw [List.append_assoc, List.append_assoc]
    exact scan_pad hp hroom hnext

/-- **A stream cut anywhere** still gives a first part of its frames, and not all
    of them when bytes are missing. -/
theorem Laid.scan_take (h : Laid F room b as r) :
    ∀ n : Nat, ∃ as₁ as₂ : List α, as = as₁ ++ as₂ ∧ (n < b.length → as₂ ≠ [])
      ∧ Scan F room (b.take n) (as₁.map .frame) := by
  induction h with
  | nil room =>
    intro n
    refine ⟨[], [], rfl, fun hn => absurd hn (Nat.not_lt_zero n), ?_⟩
    rw [List.take_nil]
    exact scan_nil room
  | @frame room room' e bytes a as he hroom _ ih =>
    intro n
    by_cases hn : n < e.length
    · refine ⟨[], a :: as, rfl, fun _ => List.cons_ne_nil _ _, ?_⟩
      rw [List.take_append_of_le_length (by omega)]
      exact he.scan_take hroom hn
    · obtain ⟨as₁, as₂, has, hne, hscan⟩ := ih (n - e.length)
      refine ⟨a :: as₁, as₂, by rw [has, List.cons_append], ?_, ?_⟩
      · intro hlt
        rw [List.length_append] at hlt
        exact hne (by omega)
      · rw [List.take_append, List.take_of_length_le (by omega)]
        exact he.scan hroom hscan
  | @pad room room' p e bytes a as hp hroom he hblock _ ih =>
    intro n
    by_cases hn : n < p.length
    · refine ⟨[], a :: as, rfl, fun _ => List.cons_ne_nil _ _, ?_⟩
      rw [List.take_append_of_le_length (by omega)]
      have hlen : (p.take n).length = n := by
        rw [List.length_take]
        omega
      exact Scan.ends (by omega) (by omega)
    · rw [List.take_append, List.take_of_length_le (l := p) (by omega)]
      by_cases hne : n - p.length < e.length
      · refine ⟨[], a :: as, rfl, fun _ => List.cons_ne_nil _ _, ?_⟩
        rw [List.take_append_of_le_length (by omega)]
        exact scan_pad hp hroom (he.scan_take hblock hne)
      · obtain ⟨as₁, as₂, has, hne', hscan⟩ := ih (n - p.length - e.length)
        refine ⟨a :: as₁, as₂, by rw [has, List.cons_append], ?_, ?_⟩
        · intro hlt
          rw [List.length_append, List.length_append] at hlt
          exact hne' (by omega)
        · rw [List.take_append, List.take_of_length_le (l := e) (by omega)]
          exact scan_pad hp hroom (he.scan hblock hscan)

/-- The room left counts the bytes laid. -/
theorem Laid.room_mod (h : Laid F room b as r) :
    room ≤ F.block → r ≤ F.block ∧ (r + b.length) % F.block = room % F.block := by
  induction h with
  | nil room =>
    intro hroom
    exact ⟨hroom, rfl⟩
  | @frame room room' e bytes a as _ hfit _ ih =>
    intro hroom
    obtain ⟨hle, hmod⟩ := ih (by omega)
    refine ⟨hle, ?_⟩
    rw [List.length_append, show room' + (e.length + bytes.length)
      = (room' + bytes.length) + e.length by omega, Nat.add_mod, hmod, ← Nat.add_mod]
    congr 1
    omega
  | @pad room room' p e bytes a as hp _ _ hfit _ ih =>
    intro hroom
    obtain ⟨hle, hmod⟩ := ih (by omega)
    refine ⟨hle, ?_⟩
    rw [List.length_append, List.length_append, show room' + (p.length + (e.length + bytes.length))
      = (room' + bytes.length) + (e.length + p.length) by omega, Nat.add_mod, hmod, ← Nat.add_mod,
      show F.block - e.length + (e.length + p.length) = room + F.block by omega,
      Nat.add_mod_right]

/-- Padding before what was laid from the start of a block. -/
theorem Laid.after_pad {p : List β} (hp : p.length = room) (hroom : room < F.header) (hne : as ≠ [])
    (h : Laid F F.block b as r) : Laid F room (p ++ b) as r := by
  have hlt := F.header_lt
  cases h with
  | nil => exact absurd rfl hne
  | frame he hfit h => exact Laid.pad hp hroom he hfit h
  | pad _ hblock => omega

/-! ## Reading on after a first part -/

/-- After `pre`, which holds the frames `as`, a reader is at a position with `r`
    bytes left in its block. -/
def Leads (F : Format β α ε) (room : Nat) (pre : List β) (as : List α) (r : Nat) : Prop :=
  ∀ (rest : List β) (es : List (Event α ε)), Scan F r rest es →
    Scan F room (pre ++ rest) (as.map .frame ++ es)

theorem Laid.leads (h : Laid F room b as r) :
    Leads F room b as r := fun _ _ hrest => h.scan hrest

theorem leads_nil (room : Nat) : Leads F room [] [] room := fun _ _ h => h

/-- Padding leads to the next block. -/
theorem leads_pad {p : List β} (hp : p.length = room) (hroom : room < F.header) :
    Leads F room p [] F.block := fun _ _ h => scan_pad hp hroom h

theorem Leads.trans {r' : Nat} {pre' : List β} {as' : List α} (h : Leads F room pre as r)
    (h' : Leads F r pre' as' r') : Leads F room (pre ++ pre') (as ++ as') r' := by
  intro rest es hrest
  rw [List.append_assoc, List.map_append, List.append_assoc]
  exact h _ _ (h' _ _ hrest)

/-- Padding that was begun is completed by what is laid behind it. -/
theorem Laid.complete_pad {room' : Nat} {q : List β} (hq : q.length + room' = room)
    (hroom : room < F.header) (hne : as ≠ []) (h : Laid F room' b as r) :
    Laid F room (q ++ b) as r := by
  cases h with
  | nil => exact absurd rfl hne
  | frame he hfit _ =>
    have := he.header_le
    omega
  | pad hp _ he hblock h =>
    rw [← List.append_assoc]
    refine Laid.pad ?_ hroom he hblock h
    rw [List.length_append]
    omega

/-- What is laid where no header fits begins with padding. -/
theorem Laid.padded (hroom : room < F.header) (hne : as ≠ []) (h : Laid F room b as r) :
    ∃ p b', b = p ++ b' ∧ p.length = room ∧ Laid F F.block b' as r := by
  cases h with
  | nil => exact absurd rfl hne
  | frame he hfit _ =>
    have := he.header_le
    omega
  | pad hp _ he hblock h => exact ⟨_, _, rfl, hp, Laid.frame he hblock h⟩

/-- From the next block on, a last part of the frames is laid. -/
theorem Laid.drop_block (h : Laid F room b as r) :
    room ≤ b.length → ∃ as₁ as₂ r', as = as₁ ++ as₂ ∧ Laid F F.block (b.drop room) as₂ r' := by
  induction h with
  | nil room =>
    intro _
    refine ⟨[], [], F.block, rfl, ?_⟩
    rw [List.drop_nil]
    exact Laid.nil _
  | @frame room room' e bytes a as he hfit _ ih =>
    intro hroom
    rw [List.length_append] at hroom
    obtain ⟨as₁, as₂, r', has, hlaid⟩ := ih (by omega)
    refine ⟨a :: as₁, as₂, r', by rw [has, List.cons_append], ?_⟩
    rw [List.drop_append, List.drop_of_length_le hfit, List.nil_append]
    exact hlaid
  | @pad room room' p e bytes a as hp _ he hblock hlaid _ =>
    intro _
    refine ⟨[], a :: as, room', rfl, ?_⟩
    rw [← hp, List.drop_left]
    exact Laid.frame he hblock hlaid

/-- Where a header fits, the first frame is in the current block. -/
theorem Laid.drop_block_cons (h : Laid F room b as r) (hhead : F.header ≤ room)
    (hroom : room ≤ b.length) :
    ∃ as₁ as₂ r', as = as₁ ++ as₂ ∧ as₁ ≠ [] ∧ Laid F F.block (b.drop room) as₂ r' := by
  cases h with
  | nil =>
    have := F.header_pos
    rw [List.length_nil] at hroom
    omega
  | @frame _ _ e bytes a as he hfit h =>
    rw [List.length_append] at hroom
    obtain ⟨as₁, as₂, r', has, hlaid⟩ := h.drop_block (by omega)
    refine ⟨a :: as₁, as₂, r', by rw [has, List.cons_append], List.cons_ne_nil _ _, ?_⟩
    rw [List.drop_append, List.drop_of_length_le hfit, List.nil_append]
    exact hlaid
  | pad hp hlt => omega

/-! ## Every stream is read in one way -/

/-- A reader meets the same events every time. -/
theorem Scan.unique (h : Scan F room bytes es) :
    ∀ {es' : List (Event α ε)}, Scan F room bytes es' → es = es' := by
  induction h with
  | @ends room bytes hlt hshort =>
    intro es' h'
    have hle : (chunk room bytes).length ≤ bytes.length := List.length_take_le' _ _
    cases h' with
    | ends | torn => rfl
    | _ => omega
  | @torn room bytes hlt hhead hcheck =>
    intro es' h'
    have hchunk : chunk room bytes = bytes := List.take_of_length_le (by omega)
    cases h' with
    | ends | torn => rfl
    | reject _ hcheck' | frame _ hcheck' =>
      rw [hchunk, hcheck] at hcheck'
      cases hcheck'
    | _ => omega
  | @pad room bytes es hroom hshort _ ih =>
    intro es' h'
    have hle : (chunk room bytes).length ≤ room := List.length_take_le _ _
    cases h' with
    | pad _ _ h' => exact ih h'
    | _ => omega
  | @overrun room bytes es hroom hhead hcheck _ ih =>
    intro es' h'
    cases h' with
    | overrun _ _ _ h' => rw [ih h']
    | reject _ hcheck' | frame _ hcheck' =>
      rw [hcheck] at hcheck'
      cases hcheck'
    | _ => omega
  | @reject room bytes e es hhead hcheck _ ih | @frame room bytes a size es hhead hcheck _ ih =>
    intro es' h'
    have hle : (chunk room bytes).length ≤ room := List.length_take_le _ _
    have hle' : (chunk room bytes).length ≤ bytes.length := List.length_take_le' _ _
    cases h' with
    | torn hlt _ hcheck' =>
      rw [show chunk room bytes = bytes from List.take_of_length_le (by omega)] at hcheck
      rw [hcheck] at hcheck'
      cases hcheck'
    | overrun _ _ hcheck' =>
      rw [hcheck] at hcheck'
      cases hcheck'
    | reject _ hcheck' h' | frame _ hcheck' h' =>
      rw [hcheck] at hcheck'
      cases hcheck' <;> rw [ih h']
    | _ => omega

/-- From a block with bytes left, one event or the end, and less to read. -/
theorem scan_next (hsize : ∀ b a n, F.check b = .frame a n → 0 < n) {n : Nat}
    (ih : ∀ (room : Nat) (bytes : List β), bytes.length < n → ∃ es, Scan F room bytes es)
    (hroom : 0 < room) (hn : bytes.length = n) : ∃ es, Scan F room bytes es := by
  have hpos := F.header_pos
  have hdrop : ∀ {k : Nat}, 0 < k → 0 < bytes.length → (bytes.drop k).length < n := by
    intro k hk hb
    rw [List.length_drop]
    omega
  have hchunk : (chunk room bytes).length = min room bytes.length := List.length_take
  by_cases hhead : F.header ≤ (chunk room bytes).length
  · cases hcheck : F.check (chunk room bytes) with
    | beyond =>
      by_cases hlt : bytes.length < room
      · rw [show chunk room bytes = bytes from List.take_of_length_le (by omega)] at hcheck
        exact ⟨[], Scan.torn hlt (by omega) hcheck⟩
      · obtain ⟨es, hes⟩ := ih F.block (bytes.drop room) (hdrop hroom (by omega))
        exact ⟨_, Scan.overrun (by omega) (by omega) hcheck hes⟩
    | reject e =>
      obtain ⟨es, hes⟩ := ih F.block (bytes.drop room) (hdrop hroom (by omega))
      exact ⟨_, Scan.reject hhead hcheck hes⟩
    | frame a size =>
      obtain ⟨es, hes⟩ := ih (room - size) (bytes.drop size)
        (hdrop (hsize _ _ _ hcheck) (by omega))
      exact ⟨_, Scan.frame hhead hcheck hes⟩
  · by_cases hlt : bytes.length < room
    · exact ⟨[], Scan.ends hlt (by omega)⟩
    · obtain ⟨es, hes⟩ := ih F.block (bytes.drop room) (hdrop hroom (by omega))
      exact ⟨es, Scan.pad (by omega) (by omega) hes⟩

/-- **Any bytes can be read**, if frames are not empty. -/
theorem exists_scan (hsize : ∀ b a n, F.check b = .frame a n → 0 < n) (n : Nat) :
    ∀ (room : Nat) (bytes : List β), bytes.length < n → ∃ es, Scan F room bytes es := by
  induction n with
  | zero =>
    intro room bytes hn
    exact absurd hn (Nat.not_lt_zero _)
  | succ n ih =>
    intro room bytes hn
    -- a full block is left behind before anything is read
    have hfull : ∀ room, 0 < room → ∃ es, Scan F room bytes es := by
      intro room hroom
      by_cases hlt : bytes.length < n
      · exact ih room bytes hlt
      · exact scan_next hsize ih hroom (by omega)
    by_cases h0 : room = 0
    · have hlt := F.header_lt
      obtain ⟨es, hes⟩ := hfull F.block (by omega)
      exact ⟨es, h0 ▸ scan_zero hes⟩
    · exact hfull room (by omega)

/-! ## Reading on after bytes of any kind -/

/-- After `pre`, in which a reader meets `es`, it is at a position with `r` bytes
    left in its block, whatever follows. -/
def Resumes (F : Format β α ε) (room : Nat) (pre : List β) (es : List (Event α ε)) (r : Nat) :
    Prop :=
  ∀ (rest : List β) (es' : List (Event α ε)), Scan F r rest es' →
    Scan F room (pre ++ rest) (es ++ es')

theorem Leads.resumes (h : Leads F room pre as r) :
    Resumes F room pre (as.map .frame) r := h

theorem Resumes.trans {r' : Nat} {pre' : List β} {es' : List (Event α ε)}
    (h : Resumes F room pre es r) (h' : Resumes F r pre' es' r') :
    Resumes F room (pre ++ pre') (es ++ es') r' := by
  intro rest es'' hrest
  rw [List.append_assoc, List.append_assoc]
  exact h _ _ (h' _ _ hrest)

/-- What is met in `pre` itself. -/
theorem Resumes.scan (h : Resumes F room pre es r) : Scan F room pre es := by
  have hscan := h [] [] (scan_nil r)
  rw [List.append_nil, List.append_nil] at hscan
  exact hscan

/-- A longer stream from which reading resumes shows the events of its first part
    first. -/
theorem Resumes.extends (hsize : ∀ b a n, F.check b = .frame a n → 0 < n) {r' : Nat} {tail : List β}
    {es' : List (Event α ε)} (h : Resumes F room pre es r)
    (h' : Resumes F room (pre ++ tail) es' r') : ∃ es'', es' = es ++ es'' := by
  obtain ⟨es'', htail⟩ := exists_scan hsize (tail.length + 1) r tail (Nat.lt_succ_self _)
  exact ⟨es'', h'.scan.unique (h _ _ htail)⟩

end Blocked

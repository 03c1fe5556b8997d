import TopicModel.Arithmetic
import TopicModel.Corpus.Entry
import TopicModel.Document

/-!
# Entries into documents

Entries are collected into one bag of words per document: sorted by document and word, equal ones
become neighbours, and a fold from the right joins neighbours by adding their counts. The documents
come out with ascending ids, the words of each ascending as well.
-/

namespace TopicModel

/-- Puts a word in front of a bag, or adds its count to the word that stands there. -/
def Document.addInFront [Arithmetic] (d : Document) (word count : Nat) : Document :=
  match d.words, d.counts with
  | w :: _, c :: counts =>
    if w = word then { d with counts := Arithmetic.unsigned 32 (count + c) :: counts }
    else { d with words := word :: d.words, counts := count :: d.counts }
  | _, _ => { d with words := word :: d.words, counts := count :: d.counts }

namespace Corpus

def Entry.le (a b : Entry) : Bool :=
  a.document < b.document || (a.document == b.document && a.word ≤ b.word)

/-- Puts an entry in front of documents, into the first of them if it belongs there. -/
def prepend [Arithmetic] (e : Entry) : List Document → List Document
  | d :: rest =>
    if d.id = e.document then d.addInFront e.word e.count :: rest
    else ⟨e.document, [e.word], [e.count]⟩ :: d :: rest
  | [] => [⟨e.document, [e.word], [e.count]⟩]

def documentsOf [Arithmetic] (es : List Entry) : List Document :=
  (es.mergeSort Entry.le).foldr prepend []

def read [Arithmetic] (bytes : Bytes) : Except Error (List Document) :=
  (entries bytes).map documentsOf

end Corpus

end TopicModel

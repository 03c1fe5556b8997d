import TopicModel.Main
import TopicModel.Proofs.CacheFree
import TopicModel.Proofs.Gathering
import TopicModel.Proofs.Chunks
import TopicModel.Proofs.Partition
import TopicModel.Proofs.Worker
import TopicModel.Proofs.Training
import TopicModel.Proofs.WeightCalls
import TopicModel.Proofs.Exact
import TopicModel.Proofs.Fit
import TopicModel.Proofs.Sharding
import TopicModel.Proofs.ShardSweep
import TopicModel.Proofs.Faults
import TopicModel.Proofs.Operations
import TopicModel.Proofs.Trace
import TopicModel.Proofs.Broadcast
import TopicModel.Proofs.Corpus
import TopicModel.Proofs.Failures
import TopicModel.Proofs.Prediction
import TopicModel.Proofs.CacheHistory
import TopicModel.Proofs.Scoring
import TopicModel.Proofs.Numerals
import TopicModel.Proofs.Text
import TopicModel.Proofs.CorpusGrammar
import TopicModel.Proofs.JsonNumbers
import TopicModel.Proofs.JsonTexts
import TopicModel.Proofs.JsonRecords
import TopicModel.Proofs.DocumentLines
import TopicModel.Proofs.Accounting
import TopicModel.Proofs.EmptyCorpus
import TopicModel.Proofs.ModelBinary
import TopicModel.Proofs.JsonDoubles
import TopicModel.Proofs.ModelFiles
import TopicModel.Proofs.FailedSamples
import TopicModel.Proofs.Accesses
import TopicModel.Proofs.Doubles
import TopicModel.Proofs.WeightSums
import TopicModel.Proofs.PartialScores
import TopicModel.Proofs.Composition
import TopicModel.Proofs.Merging
import TopicModel.Proofs.Distribution
import TopicModel.Proofs.NegativeCounts
import TopicModel.Proofs.Draws
import TopicModel.Proofs.Likelihood
import TopicModel.Proofs.WordTopics
import TopicModel.Proofs.Observers
import TopicModel.Proofs.ChunkRanges
import TopicModel.Proofs.CountViews

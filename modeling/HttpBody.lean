import HttpBody.BufList.CopyToBytes
import HttpBody.BufList.Laws
import HttpBody.BufList.Vectored
import HttpBody.Chain.Associativity
import HttpBody.Channel.Denotation
import HttpBody.Channel.Gathering
import HttpBody.Channel.Wakeups
import HttpBody.Collect.Hints
import HttpBody.Collect.Replay
import HttpBody.Collect.Total
import HttpBody.Composition.ExactHints
import HttpBody.Composition.Resuming
import HttpBody.Composition.Suspension
import HttpBody.Content.Laws
import HttpBody.Content.Observers
import HttpBody.Content.Panics
import HttpBody.DataStream.Agreement
import HttpBody.Fuse.Transparency
import HttpBody.Limited.Collecting
import HttpBody.Limited.Nested
import HttpBody.SizeHint.Addition
import HttpBody.TryFuture.Delayed
import HttpBody.WithTrailers.Merging
